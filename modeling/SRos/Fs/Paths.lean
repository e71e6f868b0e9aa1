import Mathlib.Data.Nat.Find
import SRos.Fs.Loose
import SRos.Fs.Entries

/-!
# Paths of files that were just created

`sys_open` drops the slashes in front of a path, `sfs_create` stores the path as it is. A file that
is created under a path with a slash in front is not found under it.
-/

namespace SRos.Fs

open Bytes

variable {s s' s₀ : FsState} {path name : CStr} {k ino : Nat}

/-- The file of the descriptor that `sys_open` returns for a path that was just created is the new
one. -/
def OpensCreated (s : FsState) (path : CStr) : Prop :=
  (fsCall s (.create path)).2 = 0 →
    ∃ f, openFile (fsCall (fsCall s (.create path)).1 (.open (some path))).1
        (fsCall (fsCall s (.create path)).1 (.open (some path))).2 = some f ∧
      (f.ino : Int) = (sfsCreate s rootIno path sfsFile).2

/-- The entry of the root directory that the next file is written to. -/
structure FirstRoom (g : Image) (k : Nat) : Prop where
  lt : k < slotCount g.root
  free : (slot g g.root k).ino = 0
  below : ∀ j < k, (slot g g.root j).ino ≠ 0

/-- `sfs_create` fails although there is room for an entry. -/
def CreateFails (s : FsState) (path : CStr) : Prop :=
  0 ≤ sfsLookup s rootIno path ∨ ∀ ino < maxInodes, (image s.disk).inodeUsed ino = true

/-- The entry that is taken keeps nothing of an older name behind the path, and none in front of it
has the name. One that does has a number that is negative for `sfs_lookup`. -/
def StoredWhole (s : FsState) (path : CStr) : Prop :=
  ∃ k, FirstRoom (image s.disk) k ∧
    (path.bytes.length = maxFilename - 1 ∨
      (slot (image s.disk) (image s.disk).root k).name path.bytes.length = 0) ∧
    ∀ j < k, (slot (image s.disk) (image s.disk).root j).matches path = false

/-- What is left of the path is the name of an entry, and the number in it is the one that the new
file gets. -/
def LeadsToNext (s : FsState) (path : CStr) : Prop :=
  ∃ name ino, pathParse (some path) = some name ∧ FirstFree (image s.disk) ino ∧
    sfsLookup s rootIno name = ino

def Agrees (s : FsState) (path : CStr) : Prop :=
  CreateFails s path ∨
  path.bytes.head? ≠ some 0x2F ∧ StoredWhole s path ∨
  path.bytes.head? = some 0x2F ∧ LeadsToNext s path

/-! ## Paths -/

theorem pathParse_plain (hpos : 1 ≤ path.bytes.length) (hplain : path.bytes.head? ≠ some 0x2F) :
    pathParse (some path) = some path := by
  have hdrop : path.bytes.dropWhile (· == 0x2F) = path.bytes := by
    rw [List.dropWhile_eq_self_iff]
    intro hlen
    rw [List.head?_eq_getElem?, List.getElem?_eq_getElem hlen] at hplain
    simpa using hplain
  have hne : path.bytes ≠ [] := List.ne_nil_of_length_pos hpos
  simp only [pathParse, hdrop]
  rw [if_neg hne]

/-- No slash is left in front. -/
theorem head_pathParse (hparse : pathParse (some path) = some name) :
    name.bytes.head? ≠ some 0x2F := by
  rw [pathParse] at hparse
  split at hparse
  · cases hparse
  · next hne =>
      cases hparse
      have hhead := List.head_dropWhile_not (· == (0x2F : UInt8)) hne
      rw [List.head?_eq_some_head hne]
      simpa using hhead

/-! ## The stored name -/

/-- The first characters of the new name are stored, whatever the entry held. -/
theorem Dentry.head_string_assign (d : Dentry) (ino : Nat) (hpos : 1 ≤ name.bytes.length) :
    (d.assign ino name).string.head? = name.bytes.head? := by
  obtain ⟨rest, hrest⟩ := Dentry.prefix_string_assign d ino name
  have hmax : maxFilename = 28 := rfl
  rw [← hrest, List.head?_append, List.head?_take, if_neg (by omega)]
  obtain ⟨c, cs, hcs⟩ := List.exists_cons_of_length_pos hpos
  rw [hcs]
  rfl

/-- A string that does not fill the field ends with a NUL. -/
theorem Dentry.name_length {d : Dentry} (hlt : d.string.length < maxFilename) :
    d.name d.string.length = 0 := by
  have hsplit : (List.range maxFilename).map d.name =
      d.string ++ ((List.range maxFilename).map d.name).dropWhile (· ≠ 0) :=
    List.takeWhile_append_dropWhile.symm
  have hget := congrArg (·[d.string.length]?) hsplit
  simp only [List.getElem?_map, List.getElem?_range hlt, Option.map_some,
    List.getElem?_append_right le_rfl, Nat.sub_self, ← List.head?_eq_getElem?] at hget
  have hend := List.head?_dropWhile_not (fun c : UInt8 => decide (c ≠ 0))
    ((List.range maxFilename).map d.name)
  rw [← hget] at hend
  simpa using hend

/-- The name is stored as it is when the entry has a NUL behind it. -/
theorem Dentry.string_assign_iff (d : Dentry) (ino : Nat) (hname : NameOk name) :
    (d.assign ino name).string = name.bytes ↔
      name.bytes.length = maxFilename - 1 ∨ d.name name.bytes.length = 0 := by
  have hmax : maxFilename = 28 := rfl
  have hlen := hname.2
  have hbytes : ∀ i < name.bytes.length, (d.assign ino name).name i = name.bytes.getD i 0 := by
    intro i hi
    simp only [assign]
    rw [if_pos ⟨hi, by omega⟩]
  have hend : (d.assign ino name).name name.bytes.length = 0 ↔
      name.bytes.length = maxFilename - 1 ∨ d.name name.bytes.length = 0 := by
    simp only [assign]
    rw [if_neg (by omega)]
    split
    · next hlast => simp [hlast]
    · next hlast => simp [hlast]
  rw [← hend]
  constructor
  · intro hstring
    have hzero := @Dentry.name_length (d.assign ino name) (by rw [hstring]; omega)
    rwa [hstring] at hzero
  · intro hzero
    rw [Dentry.string_eq (by omega) ?_ hzero]
    · apply List.ext_getElem?
      intro i
      by_cases hi : i < name.bytes.length
      · rw [List.getElem?_map, List.getElem?_range hi, Option.map_some, hbytes i hi,
          List.getD_eq_getElem _ _ hi, List.getElem?_eq_getElem hi]
      · rw [List.getElem?_eq_none (by simp; omega), List.getElem?_eq_none (by omega)]
    · intro i hi
      rw [hbytes i hi]
      exact CStr.getD_ne_zero name hi

/-! ## Lookups -/

namespace Kept

theorem lookup_first (h : Kept s) (name : CStr) :
    (∃ k < slotCount (image s.disk).root,
      (slot (image s.disk) (image s.disk).root k).matches name = true ∧
      (∀ j < k, (slot (image s.disk) (image s.disk).root j).matches name = false) ∧
      sfsLookup s rootIno name = int32 (slot (image s.disk) (image s.disk).root k).ino) ∨
    ((∀ k < slotCount (image s.disk).root,
      (slot (image s.disk) (image s.disk).root k).matches name = false) ∧
      sfsLookup s rootIno name = -1) :=
  sfsLookup_first h.sb h.loose.root.type_eq h.loose.root.held.onData name

theorem lookup_eq (h : Kept s) (hk : k < slotCount (image s.disk).root)
    (hmatch : (slot (image s.disk) (image s.disk).root k).matches name = true)
    (hbelow : ∀ j < k, (slot (image s.disk) (image s.disk).root j).matches name = false) :
    sfsLookup s rootIno name = int32 (slot (image s.disk) (image s.disk).root k).ino :=
  sfsLookup_eq h.sb h.loose.root.type_eq h.loose.root.held.onData hk hmatch hbelow

theorem lookup_lt (h : Kept s) (name : CStr) : sfsLookup s rootIno name < 2 ^ 31 := by
  rcases h.lookup_first name with ⟨k, -, -, -, heq⟩ | ⟨-, heq⟩
  · have hlt := (slot_packed (image s.disk) (image s.disk).root k).ino_lt
    rw [heq]
    unfold int32
    split <;> omega
  · omega

/-- Two directories that differ in an entry that has the name in neither of them. -/
theorem lookup_congr (h : Kept s) (h' : Kept s')
    (hcount : slotCount (image s'.disk).root = slotCount (image s.disk).root)
    (hslot : ∀ j < slotCount (image s.disk).root, j ≠ k →
      slot (image s'.disk) (image s'.disk).root j = slot (image s.disk) (image s.disk).root j)
    (hmiss : (slot (image s.disk) (image s.disk).root k).matches name = false)
    (hmiss' : (slot (image s'.disk) (image s'.disk).root k).matches name = false) :
    sfsLookup s' rootIno name = sfsLookup s rootIno name := by
  have hsame : ∀ j < slotCount (image s.disk).root,
      (slot (image s'.disk) (image s'.disk).root j).matches name =
        (slot (image s.disk) (image s.disk).root j).matches name := by
    intro j hj
    by_cases hjk : j = k
    · rw [hjk, hmiss, hmiss']
    · rw [hslot j hj hjk]
  rcases h.lookup_first name with ⟨j, hj, hmatch, hbelow, heq⟩ | ⟨habsent, heq⟩
  · have hjk : j ≠ k := by
      rintro rfl
      rw [hmiss] at hmatch
      cases hmatch
    rw [heq, ← hslot j hj hjk]
    apply h'.lookup_eq (by omega)
    · rw [hsame j hj, hmatch]
    · intro i hi
      rw [hsame i (by omega), hbelow i hi]
  · rcases h'.lookup_first name with ⟨j, hj, hmatch, -, -⟩ | ⟨-, heq'⟩
    · rw [hcount] at hj
      rw [hsame j hj, habsent j hj] at hmatch
      cases hmatch
    · rw [heq, heq']

/-! ## Opening -/

theorem openFile_neg (s : FsState) : openFile s (-1) = none := if_pos (.inl (by decide))

theorem openFile_setFile (s : FsState) {fd : Nat} (hfd : fd < maxFiles) {f : File}
    (huse : f.inUse = true) : openFile (s.setFile fd f) (fd : Int) = some f := by
  unfold openFile
  rw [Int.toNat_natCast, setFile_same, if_neg (by rw [huse]; simp; omega)]

/-- With a free descriptor `sys_open` opens the inode that the name leads to. -/
theorem opens_iff (h : Kept s) (hfd : ∃ fd < maxFiles, (s.files fd).inUse = false) :
    (∃ f, openFile (Fs.sysOpen s (some path)).1 (Fs.sysOpen s (some path)).2 = some f ∧
      (f.ino : Int) = ino) ↔
    ∃ name, pathParse (some path) = some name ∧ sfsLookup s rootIno name = ino := by
  unfold Fs.sysOpen
  rw [if_neg (by simp [h.mounted])]
  cases hparse : pathParse (some path) with
  | none => simp [openFile_neg]
  | some name =>
      dsimp only
      by_cases hneg : sfsLookup s rootIno name < 0
      · rw [if_pos hneg]
        constructor
        · rintro ⟨f, hf, -⟩
          rw [openFile_neg] at hf
          cases hf
        · rintro ⟨name', hname, heq⟩
          obtain rfl := Option.some.inj hname
          omega
      · rw [if_neg hneg]
        have hlt := h.lookup_lt name
        cases hfind : (List.range maxFiles).find? fun i => !(s.files i).inUse with
        | none =>
            obtain ⟨fd, hlt, hfree⟩ := hfd
            have hused := List.find?_eq_none.mp hfind fd (List.mem_range.mpr hlt)
            simp [hfree] at hused
        | some fd =>
            obtain ⟨-, hmem, -⟩ := List.find?_range_eq_some.mp hfind
            have hopen := openFile_setFile s (List.mem_range.mp hmem)
              (show (⟨u32OfInt (sfsLookup s rootIno name), 0, 2, true⟩ : File).inUse = true from rfl)
            dsimp only
            rw [hopen]
            have hino : (u32OfInt (sfsLookup s rootIno name) : Int) = sfsLookup s rootIno name := by
              rw [u32OfInt_of_nonneg (by omega) hlt]
              omega
            constructor
            · rintro ⟨f, hf, heq⟩
              obtain rfl := Option.some.inj hf
              exact ⟨name, rfl, hino.symm.trans heq⟩
            · rintro ⟨name', hname, heq⟩
              obtain rfl := Option.some.inj hname
              exact ⟨_, rfl, hino.trans heq⟩

end Kept

/-! ## Creating -/

/-- What `sfs_create` does to the root directory when it has room. -/
structure EnteredAt (s s' : FsState) (ino k : Nat) (name : CStr) : Prop where
  kept : Kept s'
  files : s'.files = s.files
  first : FirstFree (image s.disk) ino
  count : slotCount (image s'.disk).root = slotCount (image s.disk).root
  new : slot (image s'.disk) (image s'.disk).root k =
    (slot (image s.disk) (image s.disk).root k).assign ino name
  other : ∀ j < slotCount (image s.disk).root, j ≠ k →
    slot (image s'.disk) (image s'.disk).root j = slot (image s.disk) (image s.disk).root j

theorem FirstRoom.eq {g : Image} {j : Nat} (h : FirstRoom g k) (h' : FirstRoom g j) : j = k := by
  rcases Nat.lt_trichotomy j k with hlt | heq | hgt
  · exact absurd h'.free (h.below j hlt)
  · exact heq
  · exact absurd h.free (h'.below k hgt)

theorem exists_firstRoom {g : Image} (h : ∃ k < slotCount g.root, (slot g g.root k).ino = 0) :
    ∃ k, FirstRoom g k := by
  classical
  have hspec := Nat.find_spec h
  refine ⟨Nat.find h, hspec.1, hspec.2, ?_⟩
  intro j hj hzero
  exact Nat.find_min h hj ⟨lt_trans hj hspec.1, hzero⟩

theorem Kept.create_cases (h : Kept s) (hroom : FirstRoom (image s.disk) k) (name : CStr) :
    CreateFails s name ∧ (sfsCreate s rootIno name sfsFile).2 = -1 ∨
    ¬ CreateFails s name ∧ ∃ ino : Nat, (sfsCreate s rootIno name sfsFile).2 = ino ∧
      EnteredAt s (sfsCreate s rootIno name sfsFile).1 ino k name := by
  by_cases hlookup : 0 ≤ sfsLookup s rootIno name
  · rw [sfsCreate_present h.sb h.loose.root.type_eq hlookup]
    exact .inl ⟨.inl hlookup, rfl⟩
  · have hneg : sfsLookup s rootIno name < 0 := by omega
    have hkept := h.create rootIno name (show sfsFile < 2 ^ 8 by decide)
    obtain ⟨htables, hplaced⟩ := sfsCreate_placed h.sb h.loose.usable hneg
    generalize sfsCreate s rootIno name sfsFile = r at hkept htables hplaced ⊢
    obtain ⟨s', ret⟩ := r
    dsimp only at hkept htables hplaced ⊢
    generalize himage : image s'.disk = g' at hplaced
    cases hplaced with
    | noInode hall => exact .inl ⟨.inr hall, rfl⟩
    | noBlock hino hfull => exact absurd hroom.free (hfull k hroom.lt)
    | @entered ino j hino hj hfree hbelow =>
        obtain rfl : j = k := hroom.eq ⟨hj, hfree, hbelow⟩
        have hlt : ino < 2 ^ 32 := lt_trans hino.lt (by decide)
        have hslot := fun i => @slot_enter (image s.disk) name h.loose.root.held ino j i hlt hj
        have hroot : (image s'.disk).root = { (image s.disk).root with
            size := u32 ((image s.disk).root.size + dentryBytes) } := by
          rw [himage]
          exact root_enter _ _ _ _
        rw [← himage] at hslot
        refine .inr ⟨?_, ino, rfl, hkept, htables.files, hino, ?_, ?_, ?_⟩
        · rintro (hpos | hall)
          · exact hlookup hpos
          · have hused := hall ino hino.lt
            rw [hino.free] at hused
            cases hused
        · rw [hroot]
          rfl
        · rw [hslot j hj, if_pos rfl]
        · intro i hi hne
          rw [hslot i hi, if_neg hne]
    | extended hino hfull => exact absurd hroom.free (hfull k hroom.lt)

namespace EnteredAt

/-- A path without a slash in front leads to the new entry when it is stored as it is, and the
entries in front of it have other names. -/
theorem lookup_plain_iff (h : EnteredAt s s' ino k path) (hs : Kept s)
    (hroom : FirstRoom (image s.disk) k) (hname : NameOk path)
    (habsent : sfsLookup s rootIno path < 0) :
    sfsLookup s' rootIno path = ino ↔ StoredWhole s path := by
  have hlt : ino < 134 := h.first.lt
  have hfree : (slot (image s.disk) (image s.disk).root k).matches path = false := by
    rw [Bool.eq_false_iff]
    intro hmatch
    exact (Dentry.matches_iff.mp hmatch).1 hroom.free
  have hwhole : StoredWhole s path ↔
      (slot (image s'.disk) (image s'.disk).root k).string = path.bytes ∧
        ∀ j < k, (slot (image s.disk) (image s.disk).root j).matches path = false := by
    rw [h.new, Dentry.string_assign_iff _ _ hname]
    constructor
    · rintro ⟨j, hj, hend, hbelow⟩
      obtain rfl := hroom.eq hj
      exact ⟨hend, hbelow⟩
    · rintro ⟨hend, hbelow⟩
      exact ⟨k, hroom, hend, hbelow⟩
  rw [hwhole]
  constructor
  · intro hfound
    have hstring : (slot (image s'.disk) (image s'.disk).root k).string = path.bytes := by
      -- otherwise the path leads where it led before
      by_contra hne
      have hmiss : (slot (image s'.disk) (image s'.disk).root k).matches path = false := by
        rw [Bool.eq_false_iff]
        intro hmatch
        exact hne (Dentry.matches_iff.mp hmatch).2
      rw [hs.lookup_congr h.kept h.count h.other hfree hmiss] at hfound
      omega
    refine ⟨hstring, ?_⟩
    intro j hj
    by_contra hmatch
    rw [Bool.not_eq_false] at hmatch
    have hk := hroom.lt
    rcases hs.lookup_first path with ⟨i, hi, hmatch', hbelow, heq⟩ | ⟨hnone, -⟩
    · have hik : i < k := by
        by_contra hge
        rw [hbelow j (by omega)] at hmatch
        cases hmatch
      have hnew := @Kept.lookup_eq s' path i h.kept (by rw [h.count]; exact hi)
        (by rw [h.other i hi (by omega)]; exact hmatch')
        (fun l hl => by rw [h.other l (by omega) (by omega)]; exact hbelow l hl)
      rw [h.other i hi (by omega), ← heq] at hnew
      omega
    · rw [hnone j (by omega)] at hmatch
      cases hmatch
  · rintro ⟨hstring, hbelow⟩
    have hk := hroom.lt
    have hino : (slot (image s'.disk) (image s'.disk).root k).ino = ino := by
      rw [h.new]
      rfl
    have hne : ino ≠ 0 := (h.first.isIno hs.loose.usable).1.1
    rw [h.kept.lookup_eq (by rw [h.count]; exact hk)
      (Dentry.matches_iff.mpr ⟨by rw [hino]; exact hne, hstring⟩)
      (fun j hj => by rw [h.other j (by omega) (by omega)]; exact hbelow j hj), hino]
    exact int32_of_lt (by omega)

/-- What is left of a path with slashes in front leads where it led before. -/
theorem lookup_slash (h : EnteredAt s s' ino k path) (hs : Kept s)
    (hroom : FirstRoom (image s.disk) k) (hname : NameOk path)
    (hslash : path.bytes.head? = some 0x2F) (hparse : pathParse (some path) = some name) :
    sfsLookup s' rootIno name = sfsLookup s rootIno name := by
  apply hs.lookup_congr h.kept h.count h.other
  · rw [Bool.eq_false_iff]
    intro hmatch
    exact (Dentry.matches_iff.mp hmatch).1 hroom.free
  · rw [h.new, Bool.eq_false_iff]
    intro hmatch
    have hhead := Dentry.head_string_assign (slot (image s.disk) (image s.disk).root k) ino hname.1
    rw [(Dentry.matches_iff.mp hmatch).2, hslash] at hhead
    exact head_pathParse hparse hhead

end EnteredAt

theorem FirstFree.eq {g : Image} {j : Nat} (h : FirstFree g ino) (h' : FirstFree g j) : j = ino := by
  have hfree := h.free
  have hfree' := h'.free
  rcases Nat.lt_trichotomy j ino with hlt | heq | hgt
  · rw [h.below j hlt] at hfree'
    cases hfree'
  · exact heq
  · rw [h'.below ino hgt] at hfree
    cases hfree

theorem Kept.opensCreated_iff (h : Kept s) (hname : NameOk path)
    (hroom : ∃ k < slotCount (image s.disk).root,
      (slot (image s.disk) (image s.disk).root k).ino = 0)
    (hfd : ∃ fd < maxFiles, (s.files fd).inUse = false) :
    OpensCreated s path ↔ Agrees s path := by
  obtain ⟨k, hk⟩ := exists_firstRoom hroom
  unfold OpensCreated Agrees
  simp only [fsCall]
  rcases h.create_cases hk path with ⟨hfails, hret⟩ | ⟨hmade, ino, hret, hat⟩
  · rw [hret]
    exact ⟨fun _ => .inl hfails, fun _ hzero => absurd hzero (by decide)⟩
  · have habsent : sfsLookup s rootIno path < 0 := by
      by_contra hpos
      exact hmade (.inl (by omega))
    have hpos : (0 : Int) ≤ ino := Int.natCast_nonneg ino
    rw [← hat.files] at hfd
    rw [hret, if_pos hpos, hat.kept.opens_iff hfd]
    simp only [forall_true_left, hmade, false_or]
    by_cases hslash : path.bytes.head? = some 0x2F
    · simp only [hslash, ne_eq, not_true_eq_false, false_and, true_and, false_or]
      constructor
      · rintro ⟨name, hparse, hlookup⟩
        rw [hat.lookup_slash h hk hname hslash hparse] at hlookup
        exact ⟨name, ino, hparse, hat.first, hlookup⟩
      · rintro ⟨name, ino', hparse, hfirst, hlookup⟩
        obtain rfl := hat.first.eq hfirst
        rw [← hat.lookup_slash h hk hname hslash hparse] at hlookup
        exact ⟨name, hparse, hlookup⟩
    · simp only [hslash, ne_eq, not_false_eq_true, true_and, false_and, or_false]
      rw [pathParse_plain hname.1 hslash, ← hat.lookup_plain_iff h hk hname habsent]
      constructor
      · rintro ⟨name, hparse, hlookup⟩
        obtain rfl := Option.some.inj hparse
        exact hlookup
      · intro hlookup
        exact ⟨path, rfl, hlookup⟩

/-- When a path can be opened right after it was created. -/
theorem create_opens_iff (h : Reach diskStep (fun _ _ => True) (fsBoot s₀) s) (hname : NameOk path)
    (hroom : ∃ k < slotCount (image s.disk).root,
      (slot (image s.disk) (image s.disk).root k).ino = 0)
    (hfd : ∃ fd < maxFiles, (s.files fd).inUse = false) :
    OpensCreated s path ↔ Agrees s path :=
  (Kept.reach h).opensCreated_iff hname hroom hfd

/-- The path `a` on a new file system. -/
theorem create_opens_iff_plain :
    (fsCall (fsBoot .blank) (.create ⟨[0x61], by decide⟩)).2 = 0 ∧
    OpensCreated (fsBoot .blank) ⟨[0x61], by decide⟩ := by
  have hroom : FirstRoom (image (fsBoot .blank).disk) 2 :=
    ⟨by decide +kernel, by decide +kernel, by decide +kernel⟩
  have hwhole : StoredWhole (fsBoot .blank) ⟨[0x61], by decide⟩ :=
    ⟨2, hroom, by decide +kernel, by decide +kernel⟩
  refine ⟨by decide +kernel, ?_⟩
  exact (create_opens_iff .refl ⟨by decide, by decide⟩ ⟨2, hroom.lt, hroom.free⟩
    ⟨0, by decide, by decide +kernel⟩).mpr (.inr (.inl ⟨by decide, hwhole⟩))

/-- The path `/a` is stored with its slash, and opened without it. -/
theorem create_slash_not_opened : ∃ s path, Reach diskStep (fun _ _ => True) (fsBoot .blank) s ∧
    NameOk path ∧
    (∃ k < slotCount (image s.disk).root,
      (slot (image s.disk) (image s.disk).root k).ino = 0) ∧
    (∃ fd < maxFiles, (s.files fd).inUse = false) ∧ ¬ OpensCreated s path := by
  refine ⟨fsBoot .blank, ⟨[0x2F, 0x61], by decide⟩, .refl, ⟨by decide, by decide⟩,
    ⟨2, by decide +kernel, by decide +kernel⟩, ⟨0, by decide, by decide +kernel⟩, ?_⟩
  intro hopens
  have hnone : openFile (fsCall (fsCall (fsBoot .blank) (.create ⟨[0x2F, 0x61], by decide⟩)).1
      (.open (some ⟨[0x2F, 0x61], by decide⟩))).1
      (fsCall (fsCall (fsBoot .blank) (.create ⟨[0x2F, 0x61], by decide⟩)).1
        (.open (some ⟨[0x2F, 0x61], by decide⟩))).2 = none := by decide +kernel
  obtain ⟨f, hf, -⟩ := hopens (by decide +kernel)
  rw [hnone] at hf
  cases hf

end SRos.Fs
