import SRos.Fs.Names

/-!
# The entries of the root directory

A run makes file system calls one after another, and a ledger keeps the files that were created.
The entries of the root directory are `.` and `..` and the files of the ledger in their order, as
long as no call writes through a descriptor of the directory itself, which `sys_open` of `.`
returns.
-/

namespace SRos.Fs

open Bytes

/-- The user's buffer while `SYS_FS_LS` fills it. -/
structure Listing where
  userBuf : Buf
  written : Nat
  first : Bool

namespace Listing

def put (l : Listing) (bufSize : Nat) (c : UInt8) : Listing :=
  if l.written + 1 < bufSize then
    { l with userBuf := Function.update l.userBuf l.written c, written := l.written + 1 }
  else l

/-- One entry of the directory. -/
def entry (l : Listing) (bufSize : Nat) (d : Dentry) : Listing :=
  if d.ino ≠ 0 ∧ strcmp d.string [0x2E] ≠ 0 ∧ strcmp d.string [0x2E, 0x2E] ≠ 0 then
    let l := if l.first then l else l.put bufSize 0x0A
    d.string.foldl (fun l c => l.put bufSize c) { l with first := false }
  else l

/-- One block of the directory. -/
def block (l : Listing) (bufSize : Nat) (tmpBlock : Buf) : Listing :=
  (List.range dentriesPerBlock).foldl
    (fun l di => l.entry bufSize (Dentry.decode tmpBlock (di * dentryBytes))) l

end Listing

/-- `SYS_FS_LS`: the buffer of the user and the number of bytes written. -/
def sysFsLs (s : FsState) (userBuf : Option Buf) (bufSize : Nat) : Option Buf × Int :=
  match userBuf with
  | none => (none, -1)
  | some buf =>
      if bufSize = 0 then (some buf, -1)
      else
        let rootInode := (sfsReadInode s rootIno).getD Inode.zero
        let l := (List.range rootInode.blockCount).foldl
          (fun l bi => l.block bufSize (blockRead s.disk (rootInode.blocks bi) uninit))
          (⟨buf, 0, true⟩ : Listing)
        let buf := if l.written < bufSize then Function.update l.userBuf l.written 0 else l.userBuf
        (some buf, l.written)

/-- The six file system calls. -/
inductive DirAct
  | call (a : FsAct)
  | ls (userBuf : Option Buf) (bufSize : Nat)

def dirCall (s : FsState) : DirAct → FsState × Int
  | .call a => fsCall s a
  | .ls userBuf bufSize => (s, (sysFsLs s userBuf bufSize).2)

/-- The file that a call creates, with the name it is given. -/
def createdBy (s : FsState) : DirAct → List (Nat × CStr)
  | .call (.create name) =>
      if 0 ≤ (sfsCreate s rootIno name sfsFile).2 then
        [((sfsCreate s rootIno name sfsFile).2.toNat, name)]
      else []
  | _ => []

/-- The file system and the files that were created on it. -/
structure Ledger where
  fs : FsState
  created : List (Nat × CStr)

def dirStep (t : Ledger) (a : DirAct) : Option Ledger :=
  some ⟨(dirCall t.fs a).1, t.created ++ createdBy t.fs a⟩

/-- No byte is written through a descriptor of a directory. -/
def dirOk (t : Ledger) : DirAct → Prop
  | .call (.write fd _ count) => NotDir t.fs fd ∨ u32OfInt count = 0
  | _ => True

/-- The first two entries are `.` and `..` of the root. -/
structure Dots (g : Image) : Prop where
  dot : (slot g g.root 0).ino = rootIno ∧ (slot g g.root 0).string = [0x2E]
  dotdot : (slot g g.root 1).ino = rootIno ∧ (slot g g.root 1).string = [0x2E, 0x2E]

/-- Every live entry of the root directory is still there. -/
def EntriesKept (g g' : Image) : Prop :=
  ∀ k < slotCount g.root, (slot g g.root k).ino ≠ 0 →
    k < slotCount g'.root ∧ slot g' g'.root k = slot g g.root k

/-- The live entries behind the first two are those of the created files. -/
structure EntriesAre (g : Image) (created : List (Nat × CStr)) : Prop where
  le : created.length + 2 ≤ slotCount g.root
  live : ∀ k < slotCount g.root, (slot g g.root k).ino ≠ 0 ↔ k < created.length + 2
  entry : ∀ i ino name, created[i]? = some (ino, name) →
    (slot g g.root (i + 2)).ino = ino ∧
      name.bytes.take (maxFilename - 1) <+: (slot g g.root (i + 2)).string

variable {s s' : FsState} {g g' : Image} {name : CStr} {created : List (Nat × CStr)}

/-- The characters of a new name are stored, up to the 27th. -/
theorem Dentry.prefix_string_assign (d : Dentry) (ino : Nat) (name : CStr) :
    name.bytes.take (maxFilename - 1) <+: (d.assign ino name).string := by
  have hmax : maxFilename = 28 := rfl
  generalize hm : min (maxFilename - 1) name.bytes.length = m
  have hsplit : List.range maxFilename =
      List.range m ++ (List.range (maxFilename - m)).map (m + ·) := by
    rw [← List.range_add, Nat.add_sub_cancel' (by omega)]
  have hnew : ∀ i < m, (d.assign ino name).name i = name.bytes.getD i 0 := by
    intro i hi
    simp only [assign]
    rw [if_pos (by omega)]
  have htake : (List.range m).map (d.assign ino name).name =
      name.bytes.take (maxFilename - 1) := by
    apply List.ext_getElem?
    intro i
    rw [List.getElem?_map, List.getElem?_take]
    by_cases hi : i < m
    · rw [List.getElem?_range hi, if_pos (by omega), Option.map_some, hnew i hi,
        List.getD_eq_getElem _ _ (by omega), List.getElem?_eq_getElem (by omega)]
    · rw [List.getElem?_eq_none (by simp; omega)]
      split
      · rw [List.getElem?_eq_none (by omega)]
        rfl
      · rfl
  unfold string
  rw [hsplit, List.map_append, List.takeWhile_append_of_pos, htake]
  · exact List.prefix_append _ _
  · intro c hc
    obtain ⟨i, hi, rfl⟩ := List.mem_map.mp hc
    have hi := List.mem_range.mp hi
    rw [hnew i hi]
    simpa using CStr.getD_ne_zero name (show i < name.bytes.length by omega)

/-- The root directory has the same entries. -/
structure SameEntries (g g' : Image) : Prop where
  count : slotCount g'.root = slotCount g.root
  slot : ∀ k < slotCount g.root, slot g' g'.root k = slot g g.root k

theorem SameEntries.refl (g : Image) : SameEntries g g := ⟨rfl, fun _ _ => rfl⟩

theorem SameEntries.kept (h : SameEntries g g') : EntriesKept g g' := by
  intro k hk _
  exact ⟨by rw [h.count]; exact hk, h.slot k hk⟩

theorem SameEntries.are (h : SameEntries g g') (hare : EntriesAre g created) :
    EntriesAre g' created where
  le := by
    rw [h.count]
    exact hare.le
  live := by
    intro k hk
    rw [h.count] at hk
    rw [h.slot k hk]
    exact hare.live k hk
  entry := by
    intro i ino name hi
    have hlt := (List.getElem?_eq_some_iff.mp hi).1
    have hle := hare.le
    rw [h.slot (i + 2) (by omega)]
    exact hare.entry i ino name hi

/-- One entry has been added behind the live ones. -/
theorem EntriesAre.add {ino : Nat} (h : EntriesAre g created) (hino : ino ≠ 0)
    (hcount : slotCount g.root ≤ slotCount g'.root) (hlt : created.length + 2 < slotCount g'.root)
    (hold : ∀ k < created.length + 2, slot g' g'.root k = slot g g.root k)
    (hnew : (slot g' g'.root (created.length + 2)).ino = ino)
    (hname : name.bytes.take (maxFilename - 1) <+:
      (slot g' g'.root (created.length + 2)).string)
    (hrest : ∀ k < slotCount g'.root, created.length + 2 < k → (slot g' g'.root k).ino = 0) :
    EntriesAre g' (created ++ [(ino, name)]) ∧ EntriesKept g g' := by
  have hle := h.le
  refine ⟨⟨?_, ?_, ?_⟩, ?_⟩
  · simp only [List.length_append, List.length_singleton]
    omega
  · intro k hk
    simp only [List.length_append, List.length_singleton]
    rcases Nat.lt_trichotomy k (created.length + 2) with hlow | rfl | hhigh
    · rw [hold k hlow, h.live k (by omega)]
      omega
    · rw [hnew]
      exact ⟨fun _ => by omega, fun _ => hino⟩
    · rw [hrest k hk hhigh]
      exact ⟨fun habs => absurd rfl habs, fun _ => by omega⟩
  · intro i j n hi
    by_cases hold' : i < created.length
    · rw [List.getElem?_append_left hold'] at hi
      rw [hold (i + 2) (by omega)]
      exact h.entry i j n hi
    · obtain rfl : i = created.length := by
        have := (List.getElem?_eq_some_iff.mp hi).1
        simp only [List.length_append, List.length_singleton] at this
        omega
      rw [List.getElem?_concat_length] at hi
      obtain ⟨rfl, rfl⟩ := Prod.mk.inj (Option.some.inj hi)
      exact ⟨hnew, hname⟩
  · intro k hk hlive
    have hlow := (h.live k hk).mp hlive
    exact ⟨by omega, hold k hlow⟩

/-- Creating a file adds its entry behind the others, or none. -/
theorem Created.entries {d : Disk} {r : Int} (h : Owned (image d))
    (hc : Created (image d) name g' r) (hare : EntriesAre (image d) created) :
    (r < 0 ∧ SameEntries (image d) g') ∨
      ∃ ino : Nat, r = ino ∧ EntriesAre g' (created ++ [(ino, name)]) ∧
        EntriesKept (image d) g' := by
  have hroot := h.rootOk
  have hle := hare.le
  cases hc with
  | present => exact .inl ⟨by decide, .refl _⟩
  | noInode => exact .inl ⟨by decide, .refl _⟩
  | @noBlock ino hino =>
      left
      have hsame : ((image d).setInode ino (Inode.fresh ino)).root = (image d).root :=
        setInode_other _ _ (hino.isIno hroot.usable).2.symm
      refine ⟨by decide, by rw [hsame], ?_⟩
      rw [hsame]
      intro k _
      rfl
  | @entered ino k hino _ hk hfree hbelow =>
      right
      have hne := (hino.isIno hroot.usable).1.1
      have hlt : ino < 2 ^ 32 := lt_trans hino.lt (by decide)
      have hslots : slotCount ((image d).enter ino k name).root = slotCount (image d).root := by
        rw [root_enter]
        rfl
      have hkn : k = created.length + 2 := by
        rcases Nat.lt_trichotomy k (created.length + 2) with hlow | heq | hhigh
        · exact absurd hfree ((hare.live k hk).mpr hlow)
        · exact heq
        · have hlive := hbelow _ hhigh
          rw [hare.live _ (by omega)] at hlive
          omega
      subst hkn
      have hslot := fun j hj => @slot_enter (image d) name hroot.held ino _ j hlt hk hj
      refine ⟨ino, rfl, hare.add hne hslots.ge (by omega) ?_ ?_ ?_ ?_⟩
      · intro j hj
        rw [hslot j (by omega), if_neg (by omega)]
      · rw [hslot _ hk, if_pos rfl]
        rfl
      · rw [hslot _ hk, if_pos rfl]
        exact Dentry.prefix_string_assign _ _ _
      · intro j hj hhigh
        rw [hslots] at hj
        rw [hslot j hj, if_neg (by omega)]
        by_contra hlive
        have := (hare.live j hj).mp hlive
        omega
  | @extended ino b hino _ hfull _ _ hfree _ =>
      right
      have hne := (hino.isIno hroot.usable).1.1
      have hlt : ino < 2 ^ 32 := lt_trans hino.lt (by decide)
      have hper : dentriesPerBlock = 128 := rfl
      have hslots : slotCount ((image d).extend ino b name).root =
          slotCount (image d).root + dentriesPerBlock := by
        rw [root_extend]
        exact Nat.mul_succ _ _
      have hlast : slotCount (image d).root = created.length + 2 := by
        by_contra hnot
        have hlive := hfull (created.length + 2) (by omega)
        rw [hare.live _ (by omega)] at hlive
        omega
      have hslot := fun j hj => @slot_extend (image d) name hroot ino b hlt hfree j hj
      refine ⟨ino, rfl, hare.add hne (by omega) (by omega) ?_ ?_ ?_ ?_⟩
      · intro j hj
        rw [hslot j (by omega), if_pos (by omega)]
      · rw [hslot _ (by omega), if_neg (by omega), if_pos hlast.symm]
        rfl
      · rw [hslot _ (by omega), if_neg (by omega), if_pos hlast.symm]
        exact Dentry.prefix_string_assign _ _ _
      · intro j hj hhigh
        rw [hslot j (by omega), if_neg (by omega), if_neg (by omega)]
        rfl

/-- Writing to a regular file leaves the root directory alone. -/
theorem FsInv.write_entries (h : FsInv s) {fd : Int} {f : File} (hf : openFile s fd = some f)
    (hne : f.ino ≠ rootIno) (buf : Buf) (count : Int) :
    SameEntries (image s.disk) (image (sysWrite s fd buf count).1.disk) := by
  obtain ⟨s', g₁, inode₁, n, heq, -, -, -, -, hwrote, himage, -⟩ := h.sysWrite_spec hf hne buf count
  obtain ⟨hfd, hfile, huse⟩ := openFile_some hf
  have halloc : Allocated (image s.disk) f.ino := by
    rw [hfile] at huse ⊢
    exact h.allocated _ hfd huse
  have hroot : (image s'.disk).root = (image s.disk).root := by
    rw [himage]
    exact (setInode_other _ _ hne.symm).trans (congrFun hwrote.grows.inode_eq rootIno)
  rw [heq]
  refine ⟨by rw [hroot], ?_⟩
  intro k hk
  rw [hroot]
  apply slot_congr _ hk
  intro c hc
  rw [himage]
  apply hwrote.grows.data_eq
  exact h.owned.blocks.foreign halloc hwrote.grows hne.symm
    ⟨h.owned.entries.root_allocated, c, hc, rfl⟩

/-- The sizes of the inodes do not matter. -/
structure SameButSizes (g g' : Image) : Prop where
  inodeUsed_eq : g'.inodeUsed = g.inodeUsed
  blockUsed_eq : g'.blockUsed = g.blockUsed
  data_eq : g'.data = g.data
  inode : ∀ i, SameBlocks (g.inode i) (g'.inode i)

theorem SameButSizes.sameEntries (h : SameButSizes g g') : SameEntries g g' where
  count := by
    unfold slotCount
    rw [Image.root, (h.inode rootIno).count_eq]
    rfl
  slot := by
    intro k _
    unfold Fs.slot
    rw [Image.root, (h.inode rootIno).blocks_eq, h.data_eq]
    rfl

theorem SameButSizes.owned (h : SameButSizes g g') (howned : Owned g) : Owned g' := by
  have hentries := h.sameEntries
  have halloc : ∀ i, Allocated g' i ↔ Allocated g i := by
    intro i
    constructor
    · intro hi
      exact ⟨hi.isIno, by rw [← h.inodeUsed_eq]; exact hi.used⟩
    · intro hi
      exact ⟨hi.isIno, by rw [h.inodeUsed_eq]; exact hi.used⟩
  have howns : ∀ i b, Owns g' i b → Owns g i b := by
    rintro i b ⟨hi, a, ha, rfl⟩
    rw [(h.inode i).count_eq] at ha
    exact ⟨(halloc i).mp hi, a, ha, by rw [(h.inode i).blocks_eq]⟩
  have he := howned.entries
  have htwo := he.two_le
  constructor
  · refine ⟨?_, ?_, ?_, ?_⟩
    · intro b hb
      rw [h.blockUsed_eq]
      exact howned.blocks.system_used b hb
    · intro i hi
      rw [(h.inode i).ino_eq]
      exact howned.blocks.ino_eq i ((halloc i).mp hi)
    · intro i hi
      refine (howned.blocks.held i ((halloc i).mp hi)).congr (h.inode i) fun b hb => ?_
      rwa [h.blockUsed_eq]
    · intro i j b hi hj
      exact howned.blocks.apart i j b (howns i b hi) (howns j b hj)
  · refine ⟨?_, ?_, ?_, ?_, ?_, ?_, ?_, ?_, ?_⟩
    · rw [h.inodeUsed_eq]
      exact he.reserved
    · rw [h.inodeUsed_eq]
      exact he.root_used
    · exact (h.inode rootIno).type_eq.trans he.root_type
    · exact he.root_pos.trans_eq (h.inode rootIno).count_eq.symm
    · intro i hi hne
      exact (h.inode i).type_eq.trans (he.file_type i ((halloc i).mp hi) hne)
    · rw [hentries.slot 0 (by omega)]
      exact he.dot
    · rw [hentries.slot 1 (by omega)]
      exact he.dotdot
    · intro k hk hk2
      rw [hentries.count] at hk
      rw [hentries.slot k hk, halloc]
      exact he.entry k hk hk2
    · intro j hj hj2 k hk hk2
      rw [hentries.count] at hj hk
      rw [hentries.slot j hj, hentries.slot k hk]
      exact he.entry_inj j hj hj2 k hk hk2

theorem FsInv.resized (h : FsInv s) (htables : SameTables s s')
    (hsame : SameButSizes (image s.disk) (image s'.disk)) : FsInv s' where
  sb := htables.sb.trans h.sb
  mounted := htables.mounted.trans h.mounted
  owned := hsame.owned h.owned
  allocated := by
    intro fd hfd huse
    rw [htables.files] at huse ⊢
    obtain ⟨hino, hused⟩ := h.allocated fd hfd huse
    exact ⟨hino, by rwa [hsame.inodeUsed_eq]⟩
  inside := by
    intro fd hfd huse hne
    rw [htables.files] at huse hne ⊢
    unfold Inode.room
    rw [(hsame.inode _).count_eq]
    exact h.inside fd hfd huse hne

/-- The descriptor of the root directory is moved, or not. -/
theorem FsInv.move (h : FsInv s) {fd : Int} {f : File} (hf : openFile s fd = some f)
    (hroot : f.ino = rootIno) (offset : Nat) :
    FsInv (s.setFile fd.toNat { f with offset := offset }) := by
  obtain ⟨hfd, hfile, huse⟩ := openFile_some hf
  refine h.setFile _ (fun _ => ?_) fun _ hne => absurd hroot hne
  rw [hfile] at huse ⊢
  exact h.allocated _ hfd huse

theorem FsInv.read_root (h : FsInv s) {fd : Int} {f : File} (hf : openFile s fd = some f)
    (hroot : f.ino = rootIno) (buf : Buf) (count : Int) :
    ∃ offset, (sysRead s fd buf count).1 = s.setFile fd.toNat { f with offset := offset } := by
  have hread : sfsReadInode s f.ino = some (image s.disk).root := by
    rw [hroot, sfsReadInode_eq h.sb, if_pos (by decide)]
    rfl
  unfold sysRead
  simp only [hf, hread]
  exact ⟨_, rfl⟩

/-- A write of no bytes changes at most the size of the directory. -/
theorem FsInv.write_root_zero (h : FsInv s) {fd : Int} {f : File} (hf : openFile s fd = some f)
    (hroot : f.ino = rootIno) (buf : Buf) {count : Int} (hcount : u32OfInt count = 0) :
    FsInv (sysWrite s fd buf count).1 ∧
      SameEntries (image s.disk) (image (sysWrite s fd buf count).1.disk) := by
  have hread : sfsReadInode s f.ino = some (image s.disk).root := by
    rw [hroot, sfsReadInode_eq h.sb, if_pos (by decide)]
    rfl
  have hpacked := image_packed s.disk rootIno
  obtain ⟨n, hn, hwrite⟩ : ∃ n < 2 ^ 32, sfsWriteFile s (image s.disk).root buf 0 f.offset =
      (s, { (image s.disk).root with size := n }, 0) := by
    unfold sfsWriteFile writeLoop
    simp only
    split
    · exact ⟨_, u32_lt _, rfl⟩
    · exact ⟨(image s.disk).root.size, hpacked.size_lt, rfl⟩
  have hcall : (sysWrite s fd buf count).1 = sfsWriteInode
      (s.setFile fd.toNat { f with offset := u32 (f.offset + 0) })
      { (image s.disk).root with size := n } := by
    unfold sysWrite
    simp only [hf, hread, hcount, hwrite]
  have hmoved := h.move hf hroot (u32 (f.offset + 0))
  have himage := image_sfsWriteInode hmoved.sb
    (show ({ (image s.disk).root with size := n } : Inode).Packed from
      { hpacked with size_lt := hn }) h.owned.rootOk.ino_eq (by decide)
  have hsame : SameButSizes (image s.disk) (image (sysWrite s fd buf count).1.disk) := by
    rw [hcall, himage]
    refine ⟨rfl, rfl, rfl, fun i => ?_⟩
    by_cases hi : i = rootIno
    · rw [hi, setInode_self]
      exact ⟨rfl, rfl, rfl, rfl⟩
    · rw [setInode_other _ _ hi]
      exact .refl _
  refine ⟨?_, hsame.sameEntries⟩
  rw [hcall] at hsame ⊢
  exact hmoved.resized (sameTables_sfsWriteInode _ _) hsame

/-- A call that creates nothing leaves the root directory as it is. -/
theorem FsInv.quiet_step (h : FsInv s) {a : DirAct} (hok : dirOk ⟨s, created⟩ a)
    (hquiet : ∀ name, a ≠ .call (.create name)) :
    FsInv (dirCall s a).1 ∧ SameEntries (image s.disk) (image (dirCall s a).1.disk) := by
  cases a with
  | ls userBuf bufSize => exact ⟨h, .refl _⟩
  | call a =>
      cases a with
      | create name => exact absurd rfl (hquiet name)
      | «open» path =>
          refine ⟨@FsInv.step s h (.open path) trivial, ?_⟩
          change SameEntries _ (image (sysOpen s path).1.disk)
          rcases h.sysOpen_cases path with heq | ⟨fd, ino, heq, -⟩
          · rw [heq]
            exact .refl _
          · rw [heq]
            exact .refl _
      | close fd =>
          refine ⟨@FsInv.step s h (.close fd) trivial, ?_⟩
          change SameEntries _ (image (sysClose s fd).disk)
          unfold sysClose
          split
          · exact .refl _
          · exact .refl _
      | read fd buf count =>
          change FsInv (sysRead s fd buf count).1 ∧ SameEntries _ (image (sysRead s fd buf count).1.disk)
          cases hf : openFile s fd with
          | none =>
              have heq : (sysRead s fd buf count).1 = s := by simp [sysRead, hf]
              rw [heq]
              exact ⟨h, .refl _⟩
          | some f =>
              by_cases hroot : f.ino = rootIno
              · obtain ⟨offset, heq⟩ := h.read_root hf hroot buf count
                rw [heq]
                exact ⟨h.move hf hroot offset, .refl _⟩
              · obtain ⟨n, buf', heq, hend, -⟩ := h.sysRead_spec hf hroot buf count
                obtain ⟨hfd, hfile, huse⟩ := openFile_some hf
                rw [heq]
                refine ⟨h.setFile _ (fun _ => ?_) fun _ _ => hend, .refl _⟩
                rw [hfile] at huse ⊢
                exact h.allocated _ hfd huse
      | write fd buf count =>
          change FsInv (sysWrite s fd buf count).1 ∧ SameEntries _ (image (sysWrite s fd buf count).1.disk)
          cases hf : openFile s fd with
          | none =>
              have heq : (sysWrite s fd buf count).1 = s := by simp [sysWrite, hf]
              rw [heq]
              exact ⟨h, .refl _⟩
          | some f =>
              by_cases hroot : f.ino = rootIno
              · rcases hok with hnot | hzero
                · exact absurd hroot (h.ino_ne_root hf hnot)
                · exact h.write_root_zero hf hroot buf hzero
              · exact ⟨h.write hf hroot buf count, h.write_entries hf hroot buf count⟩

/-- The file system is in order, and its directory has the entries of the ledger. -/
structure DirInv (t : Ledger) : Prop where
  inv : FsInv t.fs
  are : EntriesAre (image t.fs.disk) t.created

theorem DirInv.step {t t' : Ledger} {a : DirAct} (h : DirInv t) (hok : dirOk t a)
    (hs : dirStep t a = some t') :
    DirInv t' ∧ EntriesKept (image t.fs.disk) (image t'.fs.disk) := by
  obtain rfl := Option.some.inj hs
  by_cases hcreate : ∃ name, a = .call (.create name)
  · obtain ⟨name, rfl⟩ := hcreate
    obtain ⟨-, hcreated⟩ := sfsCreate_spec h.inv.sb h.inv.owned.rootOk name
    have hinv := h.inv.create name
    have hcall : (dirCall t.fs (.call (.create name))).1 =
        (sfsCreate t.fs rootIno name sfsFile).1 := rfl
    rcases hcreated.entries h.inv.owned h.are with ⟨hneg, hsame⟩ | ⟨ino, hret, hare, hkept⟩
    · have hnone : createdBy t.fs (.call (.create name)) = [] := if_neg (by omega)
      refine ⟨⟨hinv, ?_⟩, hsame.kept⟩
      simp only [hnone, List.append_nil]
      exact hsame.are h.are
    · have hone : createdBy t.fs (.call (.create name)) = [(ino, name)] := by
        unfold createdBy
        simp only [hret, Int.toNat_natCast]
        exact if_pos (by omega)
      refine ⟨⟨hinv, ?_⟩, hkept⟩
      simp only [hone]
      exact hare
  · have hquiet : ∀ name, a ≠ .call (.create name) := fun name heq => hcreate ⟨name, heq⟩
    have hnone : createdBy t.fs a = [] := by
      unfold createdBy
      split
      · next name => exact absurd rfl (hquiet name)
      · rfl
    obtain ⟨hinv, hsame⟩ := @FsInv.quiet_step t.fs t.created h.inv a hok hquiet
    refine ⟨⟨hinv, ?_⟩, hsame.kept⟩
    simp only [hnone, List.append_nil]
    exact hsame.are h.are

theorem Booted.dirInv (hboot : Booted s) : DirInv ⟨s, []⟩ := by
  have hslots : 128 ≤ slotCount (image s.disk).root := hboot.inv.owned.entries.two_le
  refine ⟨hboot.inv, ⟨?_, ?_, ?_⟩⟩
  · simp only [List.length_nil]
    omega
  · intro k hk
    simp only at hk ⊢
    rw [hboot.slot_eq hk]
    have hone : rootIno ≠ 0 := by decide
    split
    · next hzero =>
        subst hzero
        exact ⟨fun _ => by decide, fun _ => hone⟩
    · split
      · next hone' =>
          subst hone'
          exact ⟨fun _ => by decide, fun _ => hone⟩
      · refine ⟨fun hlive => absurd rfl hlive, fun hlt => ?_⟩
        simp only [List.length_nil] at hlt
        omega
  · intro i ino name hi
    simp at hi

theorem EntriesKept.trans {g'' : Image} (h : EntriesKept g g') (h' : EntriesKept g' g'') :
    EntriesKept g g'' := by
  intro k hk hlive
  obtain ⟨hk', heq⟩ := h k hk hlive
  obtain ⟨hk'', heq'⟩ := h' k hk' (by rwa [heq])
  exact ⟨hk'', heq'.trans heq⟩

theorem DirInv.kept {t t' : Ledger} (h : DirInv t) (hreach : Reach dirStep dirOk t t') :
    DirInv t' ∧ EntriesKept (image t.fs.disk) (image t'.fs.disk) := by
  induction hreach with
  | refl => exact ⟨h, SameEntries.kept (.refl _)⟩
  | step _ hok hs ih =>
      obtain ⟨hinv, hkept⟩ := ih
      obtain ⟨hinv', hkept'⟩ := hinv.step hok hs
      exact ⟨hinv', hkept.trans hkept'⟩

/-- In every run of the six calls from `sfs_format` and `sfs_mount` on in which no byte is written
through a descriptor of a directory: `.` and `..` are entries of the root, the other entries are
those of the files that were created, and no entry changes or goes away. -/
theorem entries_of_created {s₀ : FsState} {t t' : Ledger}
    (h : Reach dirStep dirOk ⟨fsBoot s₀, []⟩ t) (h' : Reach dirStep dirOk t t') :
    Dots (image t.fs.disk) ∧ EntriesAre (image t.fs.disk) t.created ∧
      EntriesKept (image t.fs.disk) (image t'.fs.disk) := by
  obtain ⟨hinv, -⟩ := (booted_fsBoot s₀).dirInv.kept h
  have hentries := hinv.inv.owned.entries
  exact ⟨⟨hentries.dot, hentries.dotdot⟩, hinv.are, (hinv.kept h').2⟩

/-- A test of `dirOk` that can be computed. -/
def dirOkTest (t : Ledger) : DirAct → Bool
  | .call a => fsOkTest t.fs a
  | .ls _ _ => true

theorem dirOk_of_test {t : Ledger} {a : DirAct} (h : dirOkTest t a = true) : dirOk t a := by
  cases a with
  | ls userBuf bufSize => trivial
  | call a =>
      have hok := fsOk_of_test h
      cases a with
      | write fd buf count => exact .inl hok
      | _ => trivial

/-- The root directory after a file has been created, written and closed. -/
theorem entries_of_created_one : ∃ t, Reach dirStep dirOk ⟨fsBoot .blank, []⟩ t ∧
    t.created.length = 1 ∧ Dots (image t.fs.disk) ∧ EntriesAre (image t.fs.disk) t.created := by
  have hrun : ((some (⟨fsBoot .blank, []⟩ : Ledger)).bind (runList dirStep dirOkTest
      [.call (.create ⟨[0x61], by decide⟩), .call (.open (some ⟨[0x61], by decide⟩)),
        .call (.write 0 zeros 5), .call (.close 0), .ls (some zeros) 16])).any
      (fun t => t.created.length == 1) = true := by
    decide +kernel
  obtain ⟨t₀, t, ht₀, hrun, htest⟩ := Reach.exists_of_runList hrun
  obtain rfl := Option.some.inj ht₀
  have hreach := hrun.mono fun t a => dirOk_of_test
  obtain ⟨hdots, hare, -⟩ := entries_of_created hreach .refl
  exact ⟨t, hreach, by simpa using htest, hdots, hare⟩

/-- The entry `.` is overwritten through the descriptor that `sys_open` of `.` returns. -/
theorem entries_not_of_created : ∃ t, Reach dirStep (fun _ _ => True) ⟨fsBoot .blank, []⟩ t ∧
    t.created = [] ∧ ¬ Dots (image t.fs.disk) := by
  have hrun : ((some (⟨fsBoot .blank, []⟩ : Ledger)).bind (runList dirStep (fun _ _ => true)
      [.call (.open (some ⟨[0x2E], by decide⟩)), .call (.write 0 zeros 32)])).any
      (fun t => t.created.isEmpty &&
        (slot (image t.fs.disk) (image t.fs.disk).root 0).ino == 0) = true := by
    decide +kernel
  obtain ⟨t₀, t, ht₀, hrun, htest⟩ := Reach.exists_of_runList hrun
  obtain rfl := Option.some.inj ht₀
  simp only [Bool.and_eq_true, List.isEmpty_iff, beq_iff_eq] at htest
  obtain ⟨hnone, hzero⟩ := htest
  refine ⟨t, hrun.mono fun _ _ _ => trivial, hnone, fun hdots => ?_⟩
  have hroot := hdots.dot.1
  rw [hzero] at hroot
  exact absurd hroot (by decide)

end SRos.Fs
