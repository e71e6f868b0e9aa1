import SRos.Fs.Directory

/-!
# Creating a file

`Created g name g' r` lists what `sfs_create(ROOT_INO, name, SFS_FILE)` can do to the image `g`
and what it returns. A new file is entered in the first free entry of the root directory, or in
the first entry of a new block of it.
-/

namespace SRos.Fs

open Bytes

variable {s s' s'' : FsState} {g : Image} {name : CStr}

/-- Two states that differ on the disk only. -/
structure SameTables (s s' : FsState) : Prop where
  sb : s'.sb = s.sb
  mounted : s'.mounted = s.mounted
  files : s'.files = s.files

theorem SameTables.trans (h : SameTables s s') (h' : SameTables s' s'') : SameTables s s'' where
  sb := h'.sb.trans h.sb
  mounted := h'.mounted.trans h.mounted
  files := h'.files.trans h.files

theorem sameTables_refl (s : FsState) : SameTables s s := ⟨rfl, rfl, rfl⟩

theorem sameTables_write (s : FsState) (b : Nat) (buf : Buf) : SameTables s (s.write b buf) :=
  ⟨rfl, rfl, rfl⟩

theorem sameTables_sfsWriteInode (s : FsState) (inode : Inode) :
    SameTables s (sfsWriteInode s inode) := by
  unfold sfsWriteInode
  split
  · exact sameTables_refl s
  · exact sameTables_write _ _ _

def Image.root (g : Image) : Inode := g.inode rootIno

/-- What `sfs_create` relies on. -/
structure RootOk (g : Image) : Prop where
  reserved : g.inodeUsed 0 = true
  root_used : g.inodeUsed rootIno = true
  system_used : ∀ b < dataBlockStart, g.blockUsed b = true
  ino_eq : g.root.ino = rootIno
  type_eq : g.root.type = sfsDir
  packed : g.root.Packed
  held : Held g g.root
  count_pos : 0 < g.root.blockCount
  slot_lt : ∀ k < slotCount g.root, (slot g g.root k).ino < maxInodes

/-- The part of it that says nothing about the entries. -/
structure RootUsable (g : Image) : Prop where
  reserved : g.inodeUsed 0 = true
  root_used : g.inodeUsed rootIno = true
  system_used : ∀ b < dataBlockStart, g.blockUsed b = true
  ino_eq : g.root.ino = rootIno
  type_eq : g.root.type = sfsDir
  packed : g.root.Packed
  held : Held g g.root
  count_pos : 0 < g.root.blockCount

theorem RootOk.usable (h : RootOk g) : RootUsable g := { h with }

/-- The inode number that `sfs_alloc_inode` returns. -/
structure FirstFree (g : Image) (ino : Nat) : Prop where
  lt : ino < maxInodes
  free : g.inodeUsed ino = false
  below : ∀ j < ino, g.inodeUsed j = true

/-- The inode of a new file. -/
def Inode.fresh (ino : Nat) : Inode := { Inode.zero with ino := ino, type := sfsFile }

/-- The inode `ino` taken for a new file. -/
def Image.newFile (g : Image) (ino : Nat) : Image :=
  (g.markInode ino true).setInode ino (Inode.fresh ino)

/-- The new file `ino` in the free entry `k` of the root directory. -/
def Image.enter (g : Image) (ino k : Nat) (name : CStr) : Image :=
  ((g.newFile ino).setData (g.root.blocks (k / dentriesPerBlock))
    (splice (g.data (g.root.blocks (k / dentriesPerBlock))) (k % dentriesPerBlock * dentryBytes)
      dentryBytes ((slot g g.root k).assign ino name).encode)).setInode rootIno
    { g.root with size := u32 (g.root.size + dentryBytes) }

/-- The entry that is written to a new block. It is made from the last entry read. -/
def Image.lastAssigned (g : Image) (ino : Nat) (name : CStr) : Dentry :=
  (slot g g.root (slotCount g.root - 1)).assign ino name

/-- The new file `ino` in the first entry of the new block `b` of the root directory. -/
def Image.extend (g : Image) (ino b : Nat) (name : CStr) : Image :=
  (((g.newFile ino).useBlock b).setData b
    (splice zeros 0 dentryBytes (g.lastAssigned ino name).encode)).setInode rootIno
    { g.root with
      blocks := Function.update g.root.blocks g.root.blockCount b
      blockCount := g.root.blockCount + 1
      size := u32 (g.root.size + dentryBytes) }

inductive Created (g : Image) (name : CStr) : Image → Int → Prop
  | present {k : Nat} (hk : k < slotCount g.root)
      (hmatch : (slot g g.root k).matches name = true) : Created g name g (-1)
  | noInode (h : ∀ ino < maxInodes, g.inodeUsed ino = true) : Created g name g (-1)
  | noBlock {ino : Nat} (hino : FirstFree g ino)
      (hfull : ∀ k < slotCount g.root, (slot g g.root k).ino ≠ 0)
      (h : sfsDirectBlocks ≤ g.root.blockCount ∨ ∀ b < diskBlocks, g.blockUsed b = true) :
      Created g name (g.setInode ino (Inode.fresh ino)) (-1)
  | entered {ino k : Nat} (hino : FirstFree g ino)
      (habsent : ∀ k < slotCount g.root, (slot g g.root k).matches name = false)
      (hk : k < slotCount g.root) (hfree : (slot g g.root k).ino = 0)
      (hbelow : ∀ j < k, (slot g g.root j).ino ≠ 0) : Created g name (g.enter ino k name) ino
  | extended {ino b : Nat} (hino : FirstFree g ino)
      (habsent : ∀ k < slotCount g.root, (slot g g.root k).matches name = false)
      (hfull : ∀ k < slotCount g.root, (slot g g.root k).ino ≠ 0)
      (hcount : g.root.blockCount < sfsDirectBlocks) (hb : IsData b)
      (hfree : g.blockUsed b = false) (hbelow : ∀ j < b, g.blockUsed j = true) :
      Created g name (g.extend ino b name) ino

/-- The ways in which `sfs_create` can end once it has not found the name. -/
inductive Placed (g : Image) (name : CStr) : Image → Int → Prop
  | noInode (h : ∀ ino < maxInodes, g.inodeUsed ino = true) : Placed g name g (-1)
  | noBlock {ino : Nat} (hino : FirstFree g ino)
      (hfull : ∀ k < slotCount g.root, (slot g g.root k).ino ≠ 0)
      (h : sfsDirectBlocks ≤ g.root.blockCount ∨ ∀ b < diskBlocks, g.blockUsed b = true) :
      Placed g name (g.setInode ino (Inode.fresh ino)) (-1)
  | entered {ino k : Nat} (hino : FirstFree g ino) (hk : k < slotCount g.root)
      (hfree : (slot g g.root k).ino = 0) (hbelow : ∀ j < k, (slot g g.root j).ino ≠ 0) :
      Placed g name (g.enter ino k name) ino
  | extended {ino b : Nat} (hino : FirstFree g ino)
      (hfull : ∀ k < slotCount g.root, (slot g g.root k).ino ≠ 0)
      (hcount : g.root.blockCount < sfsDirectBlocks) (hb : IsData b)
      (hfree : g.blockUsed b = false) (hbelow : ∀ j < b, g.blockUsed j = true) :
      Placed g name (g.extend ino b name) ino

theorem Placed.created {g' : Image} {r : Int} (h : Placed g name g' r)
    (habsent : ∀ k < slotCount g.root, (slot g g.root k).matches name = false) :
    Created g name g' r := by
  cases h with
  | noInode h => exact .noInode h
  | noBlock hino hfull h => exact .noBlock hino hfull h
  | entered hino hk hfree hbelow => exact .entered hino habsent hk hfree hbelow
  | extended hino hfull hcount hb hfree hbelow =>
      exact .extended hino habsent hfull hcount hb hfree hbelow

theorem Inode.packed_fresh {ino : Nat} (h : ino < 2 ^ 32) : (Inode.fresh ino).Packed where
  ino_lt := h
  size_lt := (by decide : 0 < 2 ^ 32)
  type_lt := (by decide : sfsFile < 2 ^ 8)
  blockCount_lt := (by decide : 0 < 2 ^ 32)
  blocks_lt := fun _ => (by decide : 0 < 2 ^ 32)
  blocks_end := fun _ _ => rfl

theorem Inode.Packed.resize {inode : Inode} (h : inode.Packed) (n : Nat) :
    ({ inode with size := u32 n } : Inode).Packed :=
  { h with size_lt := u32_lt n }

/-- A block number in one of the places. -/
theorem Inode.Packed.place {inode : Inode} (h : inode.Packed) {i b : Nat} (hi : i < sfsDirectBlocks)
    (hb : b < 2 ^ 32) (n : Nat) :
    ({ inode with blocks := Function.update inode.blocks i b, blockCount := u32 n } :
      Inode).Packed :=
  { h with
    blockCount_lt := u32_lt n
    blocks_lt := by
      intro j
      by_cases hj : j = i
      · simpa [hj] using hb
      · simpa [hj] using h.blocks_lt j
    blocks_end := by
      intro j hj
      have hne : j ≠ i := by omega
      simpa [hne] using h.blocks_end j hj }

theorem Inode.Packed.extend {inode : Inode} (h : inode.Packed)
    (hcount : inode.blockCount < sfsDirectBlocks) {b : Nat} (hb : b < 2 ^ 32) :
    ({ inode with
      blocks := Function.update inode.blocks inode.blockCount b
      blockCount := inode.blockCount + 1 } : Inode).Packed := by
  have hmax : sfsDirectBlocks = 12 := rfl
  have hplace := h.place hcount hb (inode.blockCount + 1)
  rwa [u32_of_lt (by omega)] at hplace

theorem FirstFree.isIno {ino : Nat} (h : FirstFree g ino) (hroot : RootUsable g) :
    IsIno ino ∧ ino ≠ rootIno := by
  refine ⟨⟨?_, h.lt⟩, ?_⟩
  · rintro rfl
    exact absurd h.free (by simp [hroot.reserved])
  · rintro rfl
    exact absurd h.free (by simp [hroot.root_used])

theorem IsData.lt_u32 {b : Nat} (h : IsData b) : b < 2 ^ 32 :=
  lt_trans h.2 (by decide)

/-- `sfs_lookup` returns the inode number of the first entry with the name, as an `int`. -/
theorem sfsLookup_first (hsb : s.sb = SuperBlock.new) (htype : (image s.disk).root.type = sfsDir)
    (hdata : (image s.disk).root.OnData) (name : CStr) :
    (∃ k < slotCount (image s.disk).root,
      (slot (image s.disk) (image s.disk).root k).matches name = true ∧
      (∀ j < k, (slot (image s.disk) (image s.disk).root j).matches name = false) ∧
      sfsLookup s rootIno name = int32 (slot (image s.disk) (image s.disk).root k).ino) ∨
    ((∀ k < slotCount (image s.disk).root,
      (slot (image s.disk) (image s.disk).root k).matches name = false) ∧
      sfsLookup s rootIno name = -1) := by
  have hread : sfsReadInode s rootIno = some (image s.disk).root := by
    rw [sfsReadInode_eq hsb, if_pos (by decide)]
    rfl
  unfold sfsLookup
  simp only [hread, htype, ne_eq, not_true_eq_false, if_false]
  cases hloop : lookupLoop s (image s.disk).root name (image s.disk).root.blockCount 0 uninit with
  | none =>
      right
      refine ⟨?_, rfl⟩
      intro k hk
      exact lookupLoop_none hdata (Nat.zero_add _) hloop (by simp) hk
  | some ino =>
      left
      obtain ⟨k, hk, hmatch, hbelow, rfl⟩ := lookupLoop_some hdata (Nat.zero_add _) hloop
      exact ⟨k, hk, hmatch, fun j hj => hbelow j (by simp) hj, rfl⟩

/-- The first entry with the name is the one that is found. -/
theorem sfsLookup_eq (hsb : s.sb = SuperBlock.new) (htype : (image s.disk).root.type = sfsDir)
    (hdata : (image s.disk).root.OnData) {k : Nat} (hk : k < slotCount (image s.disk).root)
    (hmatch : (slot (image s.disk) (image s.disk).root k).matches name = true)
    (hbelow : ∀ j < k, (slot (image s.disk) (image s.disk).root j).matches name = false) :
    sfsLookup s rootIno name = int32 (slot (image s.disk) (image s.disk).root k).ino := by
  rcases sfsLookup_first hsb htype hdata name with ⟨j, hj, hmatch', hbelow', heq⟩ | ⟨habsent, -⟩
  · rcases Nat.lt_trichotomy j k with hlt | rfl | hgt
    · rw [hbelow j hlt] at hmatch'
      cases hmatch'
    · exact heq
    · rw [hbelow' k hgt] at hmatch
      cases hmatch
  · rw [habsent k hk] at hmatch
    cases hmatch

/-- What `sfs_lookup` does in the root directory. -/
theorem sfsLookup_cases (hsb : s.sb = SuperBlock.new) (hroot : RootOk (image s.disk))
    (name : CStr) :
    (∃ k < slotCount (image s.disk).root,
      (slot (image s.disk) (image s.disk).root k).matches name = true ∧
      (∀ j < k, (slot (image s.disk) (image s.disk).root j).matches name = false) ∧
      sfsLookup s rootIno name = (slot (image s.disk) (image s.disk).root k).ino) ∨
    ((∀ k < slotCount (image s.disk).root,
      (slot (image s.disk) (image s.disk).root k).matches name = false) ∧
      sfsLookup s rootIno name = -1) := by
  refine (sfsLookup_first hsb hroot.type_eq hroot.held.onData name).imp_left ?_
  rintro ⟨k, hk, hmatch, hbelow, hlookup⟩
  have hlt := hroot.slot_lt k hk
  have hmax : maxInodes < 2 ^ 31 := by decide
  exact ⟨k, hk, hmatch, hbelow, hlookup.trans (int32_of_lt (by omega))⟩

/-- What entering a new file in the root directory does to the disk. -/
theorem addDentry_cases (hsb : s.sb = SuperBlock.new) (hheld : Held g g.root)
    (hpos : 0 < g.root.blockCount) (hsystem : ∀ b < dataBlockStart, g.blockUsed b = true)
    (hdata : (image s.disk).data = g.data) (hused : (image s.disk).blockUsed = g.blockUsed)
    {ino : Nat} :
    (addDentry s g.root ino name = none ∧
      (∀ k < slotCount g.root, (slot g g.root k).ino ≠ 0) ∧
      (sfsDirectBlocks ≤ g.root.blockCount ∨ ∀ b < diskBlocks, g.blockUsed b = true)) ∨
    (∃ k s', addDentry s g.root ino name = some (g.root, s') ∧ k < slotCount g.root ∧
      (slot g g.root k).ino = 0 ∧ (∀ j < k, (slot g g.root j).ino ≠ 0) ∧ SameTables s s' ∧
      image s'.disk = (image s.disk).setData (g.root.blocks (k / dentriesPerBlock))
        (splice (g.data (g.root.blocks (k / dentriesPerBlock)))
          (k % dentriesPerBlock * dentryBytes) dentryBytes
          ((slot g g.root k).assign ino name).encode)) ∨
    (∃ b s', addDentry s g.root ino name = some ({ g.root with
        blocks := Function.update g.root.blocks g.root.blockCount b
        blockCount := g.root.blockCount + 1 }, s') ∧
      (∀ k < slotCount g.root, (slot g g.root k).ino ≠ 0) ∧
      g.root.blockCount < sfsDirectBlocks ∧ IsData b ∧ g.blockUsed b = false ∧
      (∀ j < b, g.blockUsed j = true) ∧ SameTables s s' ∧
      image s'.disk = ((image s.disk).useBlock b).setData b
        (splice zeros 0 dentryBytes (g.lastAssigned ino name).encode)) := by
  have hslot : ∀ k, slot (image s.disk) g.root k = slot g g.root k := by
    intro k
    unfold slot
    rw [hdata]
  unfold addDentry
  cases hfree : freeLoop s g.root g.root.blockCount 0 uninit Dentry.zero with
  | inl r =>
      right
      left
      obtain ⟨hbi, hdi, hblock, hd, hzero, -, hbelow⟩ :=
        freeLoop_inl hheld.onData (Nat.zero_add _) hfree
      have hper : dentriesPerBlock = 128 := rfl
      have hdiv : (dentriesPerBlock * r.bi + r.di) / dentriesPerBlock = r.bi := by
        rw [hper] at hdi ⊢
        omega
      have hmod : (dentriesPerBlock * r.bi + r.di) % dentriesPerBlock = r.di := by
        rw [hper] at hdi ⊢
        omega
      rw [hslot] at hd
      refine ⟨dentriesPerBlock * r.bi + r.di, _, rfl, ?_, hd ▸ hzero, ?_,
        sameTables_write _ _ _, ?_⟩
      · unfold slotCount
        rw [hper] at hdi ⊢
        omega
      · intro j hj
        rw [← hslot]
        exact hbelow j (by simp) hj
      · rw [image_write_data (hheld.onData r.bi hbi), hdiv, hmod, hblock, hdata, hd]
  | inr d =>
      obtain ⟨hlive, hlast⟩ := freeLoop_inr hheld.onData (Nat.zero_add _) hfree
      have hfull : ∀ k < slotCount g.root, (slot g g.root k).ino ≠ 0 := by
        intro k hk
        rw [← hslot]
        exact hlive k (by simp) hk
      have hd : d = slot g g.root (slotCount g.root - 1) := by
        rw [← hslot]
        exact hlast (by omega)
      by_cases hcount : sfsDirectBlocks ≤ g.root.blockCount
      · left
        simp only [if_pos hcount, true_and]
        exact ⟨hfull, .inl hcount⟩
      · simp only [if_neg hcount]
        cases halloc : sfsAllocBlock s with
        | none =>
            left
            refine ⟨rfl, hfull, .inr ?_⟩
            intro b hb
            have hall := sfsAllocBlock_none hsb halloc (by rw [hused]; exact hsystem) hb
            rwa [hused] at hall
        | some r =>
            obtain ⟨b, s₁⟩ := r
            right
            right
            obtain ⟨hb, hbfree, hbbelow, ⟨buf, rfl⟩, himage⟩ := sfsAllocBlock_some hsb halloc
            rw [hused] at hbfree hbbelow
            have hsucc : u32 (g.root.blockCount + 1) = g.root.blockCount + 1 := by
              apply u32_of_lt
              have : sfsDirectBlocks < 2 ^ 32 - 1 := by decide
              omega
            refine ⟨b, _, by rw [hsucc], hfull, by omega, hb, hbfree, hbbelow,
              (sameTables_write _ _ _).trans (sameTables_write _ _ _), ?_⟩
            rw [image_write_data hb, himage, hd]
            rfl

/-- `sfs_create` behind the search for the name. -/
theorem sfsCreate_placed (hsb : s.sb = SuperBlock.new) (hroot : RootUsable (image s.disk))
    (hlookup : sfsLookup s rootIno name < 0) :
    SameTables s (sfsCreate s rootIno name sfsFile).1 ∧
      Placed (image s.disk) name (image (sfsCreate s rootIno name sfsFile).1.disk)
        (sfsCreate s rootIno name sfsFile).2 := by
  have hread : sfsReadInode s rootIno = some (image s.disk).root := by
    rw [sfsReadInode_eq hsb, if_pos (by decide)]
    rfl
  unfold sfsCreate
  simp only [hread, hroot.type_eq, ne_eq, not_true_eq_false, if_false]
  rw [if_neg (by omega)]
  cases halloc : sfsAllocInode s with
  | none => exact ⟨sameTables_refl s, .noInode fun ino => sfsAllocInode_none hsb halloc⟩
  | some r =>
      obtain ⟨ino, s₁⟩ := r
      obtain ⟨hlt, hfree, hbelow, ⟨buf, rfl⟩, himage⟩ := sfsAllocInode_some hsb halloc
      have hfirst : FirstFree (image s.disk) ino := ⟨hlt, hfree, hbelow⟩
      obtain ⟨hino, hne⟩ := hfirst.isIno hroot
      have hnew : newInode (s.write inodeBitmapBlock buf) ino rootIno sfsFile =
          some (Inode.fresh ino, s.write inodeBitmapBlock buf) := rfl
      have hinode : ino < 2 ^ 32 := lt_trans hlt (by decide)
      have hwrite := @image_sfsWriteInode (s.write inodeBitmapBlock buf) hsb
        (Inode.fresh ino) ino (Inode.packed_fresh hinode) rfl hino
      rw [himage] at hwrite
      have htables : SameTables s (sfsWriteInode (s.write inodeBitmapBlock buf)
          (Inode.fresh ino)) :=
        (sameTables_write _ _ _).trans (sameTables_sfsWriteInode _ _)
      have hsb' := htables.sb.trans hsb
      simp only [hnew]
      rcases @addDentry_cases _ _ name hsb' hroot.held hroot.count_pos hroot.system_used
        (by rw [hwrite]; rfl) (by rw [hwrite]; rfl) ino with
        ⟨hadd, hfull, hwhy⟩ | ⟨k, s₂, hadd, hk, hzero, hlive, htab, himage₂⟩ |
        ⟨b, s₂, hadd, hfull, hcount, hb, hbfree, hbbelow, htab, himage₂⟩
      · simp only [hadd]
        obtain ⟨⟨buf', hfreed⟩, himage₃⟩ := sfsFreeInode_eq hsb' hino
        constructor
        · rw [hfreed]
          exact htables.trans (sameTables_write _ _ _)
        · have hg : image (sfsFreeInode (sfsWriteInode (s.write inodeBitmapBlock buf)
              (Inode.fresh ino)) ino).disk = (image s.disk).setInode ino (Inode.fresh ino) := by
            rw [himage₃, hwrite]
            unfold Image.markInode Image.setInode Inode.fresh
            simp only [Function.update_idem]
            rw [← hfree, Function.update_eq_self]
          rw [hg]
          exact .noBlock hfirst hfull hwhy
      · simp only [hadd]
        refine ⟨(htables.trans htab).trans (sameTables_sfsWriteInode _ _), ?_⟩
        have hpacked := hroot.packed.resize ((image s.disk).root.size + dentryBytes)
        rw [image_sfsWriteInode (htab.sb.trans hsb') hpacked hroot.ino_eq (by decide),
          himage₂, hwrite]
        exact .entered hfirst hk hzero hlive
      · simp only [hadd]
        refine ⟨(htables.trans htab).trans (sameTables_sfsWriteInode _ _), ?_⟩
        have hpacked := (hroot.packed.extend hcount hb.lt_u32).resize
          ((image s.disk).root.size + dentryBytes)
        rw [image_sfsWriteInode (htab.sb.trans hsb') hpacked hroot.ino_eq (by decide),
          himage₂, hwrite]
        exact .extended hfirst hfull hcount hb hbfree hbbelow

theorem sfsCreate_present (hsb : s.sb = SuperBlock.new) (htype : (image s.disk).root.type = sfsDir)
    (hlookup : 0 ≤ sfsLookup s rootIno name) : sfsCreate s rootIno name sfsFile = (s, -1) := by
  have hread : sfsReadInode s rootIno = some (image s.disk).root := by
    rw [sfsReadInode_eq hsb, if_pos (by decide)]
    rfl
  unfold sfsCreate
  simp only [hread, htype, ne_eq, not_true_eq_false, if_false]
  rw [if_pos (by omega)]

theorem sfsCreate_spec (hsb : s.sb = SuperBlock.new) (hroot : RootOk (image s.disk))
    (name : CStr) :
    SameTables s (sfsCreate s rootIno name sfsFile).1 ∧
      Created (image s.disk) name (image (sfsCreate s rootIno name sfsFile).1.disk)
        (sfsCreate s rootIno name sfsFile).2 := by
  rcases sfsLookup_cases hsb hroot name with ⟨k, hk, hmatch, -, hlookup⟩ | ⟨habsent, hlookup⟩
  · rw [sfsCreate_present hsb hroot.type_eq (by omega)]
    exact ⟨sameTables_refl s, .present hk hmatch⟩
  · have hneg : sfsLookup s rootIno name < 0 := by omega
    obtain ⟨htables, hplaced⟩ := sfsCreate_placed hsb hroot.usable hneg
    exact ⟨htables, hplaced.created habsent⟩

theorem slot_packed (g : Image) (dir : Inode) (k : Nat) : (slot g dir k).Packed :=
  Dentry.packed_decode _ _

theorem slot_div_lt {dir : Inode} {k : Nat} (hk : k < slotCount dir) :
    k / dentriesPerBlock < dir.blockCount := by
  unfold slotCount at hk
  exact Nat.div_lt_of_lt_mul hk

theorem root_setInode (g : Image) (inode : Inode) : (g.setInode rootIno inode).root = inode :=
  setInode_self g rootIno inode

theorem root_enter (g : Image) (ino k : Nat) (name : CStr) :
    (g.enter ino k name).root = { g.root with size := u32 (g.root.size + dentryBytes) } :=
  root_setInode _ _

theorem root_extend (g : Image) (ino b : Nat) (name : CStr) :
    (g.extend ino b name).root = { g.root with
      blocks := Function.update g.root.blocks g.root.blockCount b
      blockCount := g.root.blockCount + 1
      size := u32 (g.root.size + dentryBytes) } :=
  root_setInode _ _

/-- Entering a file changes one entry of the root directory. -/
theorem slot_enter (hheld : Held g g.root) {ino k j : Nat} (hino : ino < 2 ^ 32)
    (hk : k < slotCount g.root) (hj : j < slotCount g.root) :
    slot (g.enter ino k name) (g.enter ino k name).root j =
      if j = k then (slot g g.root k).assign ino name else slot g g.root j := by
  have hdata : (g.enter ino k name).data = Function.update g.data
      (g.root.blocks (k / dentriesPerBlock))
      (splice (g.data (g.root.blocks (k / dentriesPerBlock)))
        (k % dentriesPerBlock * dentryBytes) dentryBytes
        ((slot g g.root k).assign ino name).encode) := rfl
  rw [root_enter]
  by_cases hjk : j = k
  · subst hjk
    rw [if_pos rfl]
    conv_lhs => unfold slot
    rw [hdata, Function.update_self]
    exact Dentry.decode_splice ((slot_packed g g.root j).assign hino name) _ _
  · rw [if_neg hjk]
    unfold slot
    rw [hdata]
    simp only
    by_cases hblock : j / dentriesPerBlock = k / dentriesPerBlock
    · rw [hblock, Function.update_self]
      apply Dentry.decode_congr
      intro i hi hi'
      apply splice_outside
      have hmod : j % dentriesPerBlock ≠ k % dentriesPerBlock := by
        intro hmod
        have hj' := Nat.div_add_mod j dentriesPerBlock
        rw [hblock, hmod, Nat.div_add_mod] at hj'
        exact hjk hj'.symm
      unfold dentryBytes at hi hi' ⊢
      omega
    · rw [Function.update_of_ne]
      intro heq
      exact hblock (hheld.inj _ (slot_div_lt hj) _ (slot_div_lt hk) heq)

theorem Dentry.decode_zeros (off : Nat) : Dentry.decode zeros off = Dentry.zero := by
  unfold decode zeros zero load32
  simp

/-- Extending the root directory leaves its entries alone and adds those of the new block. -/
theorem slot_extend (hroot : RootOk g) {ino b : Nat} (hino : ino < 2 ^ 32)
    (hfree : g.blockUsed b = false) (j : Nat) (hj : j < slotCount g.root + dentriesPerBlock) :
    slot (g.extend ino b name) (g.extend ino b name).root j =
      if j < slotCount g.root then slot g g.root j
      else if j = slotCount g.root then g.lastAssigned ino name
      else Dentry.zero := by
  have hdata : (g.extend ino b name).data = Function.update g.data b
      (splice zeros 0 dentryBytes (g.lastAssigned ino name).encode) := rfl
  have hper : dentriesPerBlock = 128 := rfl
  rw [root_extend]
  by_cases hold : j < slotCount g.root
  · have hdiv := slot_div_lt hold
    rw [if_pos hold]
    unfold slot
    rw [hdata]
    simp only
    rw [Function.update_of_ne (by omega : j / dentriesPerBlock ≠ g.root.blockCount),
      Function.update_of_ne]
    intro heq
    have hused := hroot.held.used _ hdiv
    rw [heq, hfree] at hused
    cases hused
  · have hdiv : j / dentriesPerBlock = g.root.blockCount := by
      unfold slotCount at hold hj
      rw [hper] at hold hj ⊢
      omega
    rw [if_neg hold]
    conv_lhs => unfold slot
    rw [hdata]
    simp only [hdiv, Function.update_self]
    by_cases hfirst : j = slotCount g.root
    · have hmod : j % dentriesPerBlock = 0 := by
        rw [hfirst]
        exact Nat.mul_mod_right _ _
      rw [if_pos hfirst, hmod, Nat.zero_mul]
      exact Dentry.decode_splice ((slot_packed _ _ _).assign hino name) _ _
    · have hmod : 0 < j % dentriesPerBlock := by
        unfold slotCount at hfirst hold
        rw [hper] at hfirst hold hdiv ⊢
        omega
      rw [if_neg hfirst, ← Dentry.decode_zeros (j % dentriesPerBlock * dentryBytes)]
      apply Dentry.decode_congr
      intro i hi _
      apply splice_outside
      right
      have hle : 1 * dentryBytes ≤ j % dentriesPerBlock * dentryBytes :=
        Nat.mul_le_mul_right _ hmod
      omega

end SRos.Fs
