import SRos.Fs.Invariant

/-!
# What no sequence of calls can break

A directory can be written through a descriptor of its own, so an entry can give any inode number
for a file, also one that is not allocated, and a position can lie behind the blocks of an inode
that was made after the file was opened. Whatever is created, opened and written, the root keeps its
blocks, and every other slot of the inode table lists used data blocks or none.
-/

namespace SRos.Fs

open Bytes

/-- What the slot `ino` of the inode table can hold: its own number unless it was never written, and
blocks of the data area that are marked as used, with gaps between them. -/
structure SlotOk (g : Image) (ino : Nat) (inode : Inode) : Prop where
  packed : inode.Packed
  ino_eq : inode.ino = 0 ∨ inode.ino = ino
  count_le : inode.blockCount ≤ sfsDirectBlocks
  block : ∀ i, inode.blocks i = 0 ∨ IsData (inode.blocks i) ∧ g.blockUsed (inode.blocks i) = true

/-- The root directory has no gaps. -/
structure RootLike (g : Image) (inode : Inode) : Prop where
  ino_eq : inode.ino = rootIno
  type_eq : inode.type = sfsDir
  held : Held g inode
  count_pos : 0 < inode.blockCount

structure Loose (g : Image) : Prop where
  reserved : g.inodeUsed 0 = true
  root_used : g.inodeUsed rootIno = true
  system_used : ∀ b < dataBlockStart, g.blockUsed b = true
  slot : ∀ ino, SlotOk g ino (g.inode ino)
  root : RootLike g g.root

variable {s s' s'' : FsState} {g g' : Image} {inode : Inode} {ino b : Nat} {name : CStr}

theorem SlotOk.mono (h : SlotOk g ino inode)
    (hused : ∀ b, g.blockUsed b = true → g'.blockUsed b = true) : SlotOk g' ino inode :=
  { h with
    block := fun i => (h.block i).imp_right fun hi => ⟨hi.1, hused _ hi.2⟩ }

theorem RootLike.mono (h : RootLike g inode)
    (hused : ∀ b, g.blockUsed b = true → g'.blockUsed b = true) : RootLike g' inode :=
  { h with
    held := { h.held with used := fun k hk => hused _ (h.held.used k hk) } }

theorem useBlock_self (g : Image) (b : Nat) : (g.useBlock b).blockUsed b = true := by
  simp [Image.useBlock]

theorem RootLike.push (h : RootLike g inode) (hcount : inode.blockCount < sfsDirectBlocks)
    (hb : IsData b) (hfree : g.blockUsed b = false) : RootLike (g.useBlock b) (inode.push b) where
  ino_eq := h.ino_eq
  type_eq := h.type_eq
  held := h.held.push hcount hb hfree
  count_pos := Nat.succ_pos _

/-- An inode that gets a new block, behind its last one or behind a gap. -/
theorem SlotOk.place (h : SlotOk g ino inode) {i : Nat} (hi : i < sfsDirectBlocks)
    (hcount : inode.blockCount ≤ i) (hb : IsData b) (hused : g.blockUsed b = true) :
    SlotOk g ino { inode with
      blocks := Function.update inode.blocks i b
      blockCount := u32 (inode.blockCount + 1) } := by
  have hmod : u32 (inode.blockCount + 1) ≤ inode.blockCount + 1 := Nat.mod_le _ _
  refine ⟨h.packed.place hi hb.lt_u32 _, h.ino_eq, ?_, ?_⟩
  · change u32 (inode.blockCount + 1) ≤ sfsDirectBlocks
    omega
  · intro j
    by_cases hj : j = i
    · subst hj
      simp [hb, hused]
    · simpa [hj] using h.block j

theorem SlotOk.resize (h : SlotOk g ino inode) (n : Nat) :
    SlotOk g ino { inode with size := u32 n } :=
  { h with packed := h.packed.resize n }

namespace Loose

theorem usable (h : Loose g) : RootUsable g where
  reserved := h.reserved
  root_used := h.root_used
  system_used := h.system_used
  ino_eq := h.root.ino_eq
  type_eq := h.root.type_eq
  packed := (h.slot rootIno).packed
  held := h.root.held
  count_pos := h.root.count_pos

theorem markInode (h : Loose g) (used : Bool) (h0 : ino ≠ 0) (h1 : ino ≠ rootIno) :
    Loose (g.markInode ino used) :=
  { h with
    reserved := (Function.update_of_ne h0.symm _ _).trans h.reserved
    root_used := (Function.update_of_ne h1.symm _ _).trans h.root_used
    slot := fun j => (h.slot j).mono fun _ hb => hb
    root := h.root.mono fun _ hb => hb }

theorem useBlock_mono (g : Image) (b c : Nat) (hc : g.blockUsed c = true) :
    (g.useBlock b).blockUsed c = true := by
  by_cases hcb : c = b
  · rw [hcb]
    exact useBlock_self g b
  · simp [Image.useBlock, hcb, hc]

theorem useBlock (h : Loose g) (b : Nat) : Loose (g.useBlock b) :=
  { h with
    system_used := fun c hc => useBlock_mono g b c (h.system_used c hc)
    slot := fun j => (h.slot j).mono (useBlock_mono g b)
    root := h.root.mono (useBlock_mono g b) }

theorem setData (h : Loose g) (b : Nat) (buf : Buf) : Loose (g.setData b buf) :=
  { h with
    slot := fun j => (h.slot j).mono fun _ hb => hb
    root := h.root.mono fun _ hb => hb }

theorem setInode (h : Loose g) (hslot : SlotOk g ino inode)
    (hroot : ino = rootIno → RootLike g inode) : Loose (g.setInode ino inode) :=
  { h with
    slot := by
      intro j
      by_cases hj : j = ino
      · subst hj
        rw [setInode_self]
        exact hslot.mono fun _ hb => hb
      · rw [setInode_other _ _ hj]
        exact (h.slot j).mono fun _ hb => hb
    root := by
      by_cases hino : rootIno = ino
      · subst hino
        rw [root_setInode]
        exact (hroot rfl).mono fun _ hb => hb
      · have hsame : (g.setInode ino inode).root = g.root := setInode_other _ _ hino
        rw [hsame]
        exact h.root.mono fun _ hb => hb }

end Loose

/-- The file system in any run. -/
structure Kept (s : FsState) : Prop where
  sb : s.sb = SuperBlock.new
  mounted : s.mounted = true
  loose : Loose (image s.disk)
  inside : ∀ fd < maxFiles, (s.files fd).inUse = true → (s.files fd).ino = rootIno →
    (s.files fd).offset ≤ (image s.disk).root.room

/-- The disk has been written in the course of a call, but not yet the inode of the root. -/
structure Later (s s' : FsState) : Prop where
  kept : Kept s'
  tables : SameTables s s'
  used : ∀ b, (image s.disk).blockUsed b = true → (image s'.disk).blockUsed b = true
  root : (image s'.disk).root = (image s.disk).root

theorem Later.trans (h : Later s s') (h' : Later s' s'') : Later s s'' where
  kept := h'.kept
  tables := h.tables.trans h'.tables
  used := fun b hb => h'.used b (h.used b hb)
  root := h'.root.trans h.root

namespace Kept

theorem refl (h : Kept s) : Later s s := ⟨h, sameTables_refl s, fun _ hb => hb, rfl⟩

theorem of_image (h : Kept s) (htables : SameTables s s') (hloose : Loose (image s'.disk))
    (hcount : (image s.disk).root.blockCount ≤ (image s'.disk).root.blockCount) : Kept s' where
  sb := htables.sb.trans h.sb
  mounted := htables.mounted.trans h.mounted
  loose := hloose
  inside := by
    intro fd hfd huse hino
    rw [htables.files] at huse hino ⊢
    exact (h.inside fd hfd huse hino).trans (Nat.mul_le_mul_left _ hcount)

theorem later (h : Kept s) (htables : SameTables s s') (himage : image s'.disk = g)
    (hloose : Loose g) (hused : ∀ b, (image s.disk).blockUsed b = true → g.blockUsed b = true)
    (hroot : g.root = (image s.disk).root) : Later s s' := by
  subst himage
  exact ⟨h.of_image htables hloose (by rw [hroot]), htables, hused, hroot⟩

/-- Block 0 can be written where an inode has a gap; the image does not show it. -/
theorem write (h : Kept s) (hb : b = 0 ∨ IsData b) (buf : Buf) : Later s (s.write b buf) := by
  have himage : image (s.write b buf).disk = image s.disk ∨
      image (s.write b buf).disk = (image s.disk).setData b buf := by
    rcases hb with rfl | hb
    · left
      have hnz : ∀ c, c ≠ 0 → (s.write 0 buf).disk c = s.disk c := fun c hc =>
        write_disk_of_ne hc buf
      unfold image
      simp only [Image.mk.injEq]
      refine ⟨by rw [hnz _ (by decide)], by rw [hnz _ (by decide)], ?_, ?_⟩
      · funext i
        have htable : inodeTableStart + (i - 1) / inodesPerBlock ≠ 0 := by simp [inodeTableStart]
        rw [hnz _ htable]
      · funext c
        split
        · next hc =>
            have : 5 ≤ c := hc.1
            rw [hnz c (by omega)]
        · rfl
    · exact .inr (image_write_data hb buf)
  rcases himage with himage | himage
  · exact h.later (sameTables_write _ _ _) himage h.loose (fun _ hb => hb) rfl
  · exact h.later (sameTables_write _ _ _) himage (h.loose.setData b buf) (fun _ hb => hb) rfl

theorem allocInode (h : Kept s) (halloc : sfsAllocInode s = some (ino, s')) :
    IsIno ino ∧ ino ≠ rootIno ∧ Later s s' := by
  obtain ⟨hlt, hfree, -, ⟨buf, rfl⟩, himage⟩ := sfsAllocInode_some h.sb halloc
  have h0 : ino ≠ 0 := by
    rintro rfl
    rw [h.loose.reserved] at hfree
    cases hfree
  have h1 : ino ≠ rootIno := by
    rintro rfl
    rw [h.loose.root_used] at hfree
    cases hfree
  exact ⟨⟨h0, hlt⟩, h1, h.later (sameTables_write _ _ _) himage (h.loose.markInode true h0 h1)
    (fun _ hb => hb) rfl⟩

theorem freeInode (h : Kept s) (hino : IsIno ino) (h1 : ino ≠ rootIno) :
    Later s (sfsFreeInode s ino) := by
  obtain ⟨⟨buf, hwrite⟩, himage⟩ := sfsFreeInode_eq h.sb hino
  have htables : SameTables s (sfsFreeInode s ino) := by
    rw [hwrite]
    exact sameTables_write _ _ _
  exact h.later htables himage (h.loose.markInode false hino.1 h1) (fun _ hb => hb) rfl

theorem allocBlock (h : Kept s) (halloc : sfsAllocBlock s = some (b, s')) :
    IsData b ∧ (image s.disk).blockUsed b = false ∧
      image s'.disk = (image s.disk).useBlock b ∧ Later s s' := by
  obtain ⟨hb, hfree, -, ⟨buf, rfl⟩, himage⟩ := sfsAllocBlock_some h.sb halloc
  exact ⟨hb, hfree, himage, h.later (sameTables_write _ _ _) himage (h.loose.useBlock b)
    (Loose.useBlock_mono _ b) rfl⟩

theorem writeInode_skip (h : Kept s) (hskip : ¬ IsIno inode.ino) : sfsWriteInode s inode = s := by
  have hcount : s.sb.inodeCount = maxInodes := by rw [h.sb]; rfl
  unfold sfsWriteInode
  rw [hcount, if_pos]
  unfold IsIno at hskip
  omega

/-- An inode is written to its own slot, or nowhere. -/
theorem writeInode (h : Kept s) (hslot : SlotOk (image s.disk) ino inode) (hne : ino ≠ rootIno) :
    Later s (sfsWriteInode s inode) := by
  by_cases hwrite : IsIno inode.ino
  · have heq : inode.ino = ino := hslot.ino_eq.resolve_left hwrite.1
    have himage := image_sfsWriteInode h.sb hslot.packed heq (heq ▸ hwrite)
    exact h.later (sameTables_sfsWriteInode _ _) himage
      (h.loose.setInode hslot fun hr => absurd hr hne) (fun _ hb => hb)
      (setInode_other _ _ hne.symm)
  · rw [h.writeInode_skip hwrite]
    exact h.refl

theorem writeRoot (h : Kept s) (hslot : SlotOk (image s.disk) rootIno inode)
    (hroot : RootLike (image s.disk) inode)
    (hcount : (image s.disk).root.blockCount ≤ inode.blockCount) :
    Kept (sfsWriteInode s inode) := by
  have himage := image_sfsWriteInode h.sb hslot.packed hroot.ino_eq (by decide)
  apply h.of_image (sameTables_sfsWriteInode _ _)
  · rw [himage]
    exact h.loose.setInode hslot fun _ => hroot
  · rw [himage, root_setInode]
    exact hcount

/-! ## Creating -/

/-- The inode of a new file or directory fits its slot. -/
theorem newInode (h : Kept s) {parentIno type : Nat} (hino : IsIno ino) (htype : type < 2 ^ 8)
    (hnew : newInode s ino parentIno type = some (inode, s')) :
    Later s s' ∧ SlotOk (image s'.disk) ino inode := by
  have hlt : ino < 2 ^ 32 := lt_trans hino.2 (by decide)
  have hzero : ({ Inode.zero with ino := ino, type := type } : Inode).Packed :=
    ⟨hlt, (by decide : 0 < 2 ^ 32), htype, (by decide : 0 < 2 ^ 32),
      fun _ => (by decide : 0 < 2 ^ 32), fun _ _ => rfl⟩
  unfold Fs.newInode at hnew
  split at hnew
  · split at hnew
    · cases hnew
    · next b s₁ halloc =>
        cases hnew
        obtain ⟨hb, -, himage, hlater⟩ := h.allocBlock halloc
        have hused : (image s₁.disk).blockUsed b = true := by
          rw [himage]
          exact useBlock_self _ b
        have hwrite := hlater.kept.write (.inr hb) (dotDentries ino parentIno)
        refine ⟨hlater.trans hwrite, ?_, .inr rfl, (by decide : 1 ≤ sfsDirectBlocks), ?_⟩
        · exact (hzero.extend (by decide : 0 < sfsDirectBlocks) hb.lt_u32).resize (2 * dentryBytes)
        · intro i
          by_cases hi : i = 0
          · subst hi
            exact .inr ⟨hb, hwrite.used _ hused⟩
          · exact .inl (Function.update_of_ne hi _ _)
  · cases hnew
    exact ⟨h.refl, hzero, .inr rfl, Nat.zero_le _, fun _ => .inl rfl⟩

/-- A new entry in a directory. The directory was read before, and its blocks are still used. -/
theorem addDentry (h : Kept s) {p : Nat} {parent parent' : Inode} {newIno : Nat}
    (hslot : SlotOk (image s.disk) p parent)
    (hroot : p = rootIno → RootLike (image s.disk) parent)
    (hadd : addDentry s parent newIno name = some (parent', s')) :
    Later s s' ∧ SlotOk (image s'.disk) p parent' ∧
      (p = rootIno → RootLike (image s'.disk) parent') ∧
      parent.blockCount ≤ parent'.blockCount := by
  unfold Fs.addDentry at hadd
  split at hadd
  · next slot hfree =>
      cases hadd
      have hblock : parent.blocks slot.bi = 0 ∨ IsData (parent.blocks slot.bi) :=
        (hslot.block slot.bi).imp_right And.left
      have hwrite := h.write hblock (splice slot.block (slot.di * dentryBytes) dentryBytes
        (slot.d.assign newIno name).encode)
      exact ⟨hwrite, hslot.mono hwrite.used, fun hp => (hroot hp).mono hwrite.used, le_rfl⟩
  · next d hfull =>
      split at hadd
      · cases hadd
      · next hcount =>
          split at hadd
          · cases hadd
          · next b s₁ halloc =>
              cases hadd
              obtain ⟨hb, hfree, himage, hlater⟩ := h.allocBlock halloc
              have hused : (image s₁.disk).blockUsed b = true := by
                rw [himage]
                exact useBlock_self _ b
              have hwrite := hlater.kept.write (.inr hb) (splice zeros 0 dentryBytes
                (d.assign newIno name).encode)
              have hall := hlater.trans hwrite
              have hmax : sfsDirectBlocks = 12 := rfl
              have hsucc : u32 (parent.blockCount + 1) = parent.blockCount + 1 :=
                u32_of_lt (by omega)
              refine ⟨hall, (hslot.mono hall.used).place (by omega) le_rfl hb
                (hwrite.used _ hused), ?_, ?_⟩
              · intro hp
                rw [hsucc]
                have hpush := (hroot hp).push (by omega) hb hfree
                rw [← himage] at hpush
                exact hpush.mono hwrite.used
              · rw [hsucc]
                exact Nat.le_succ _

theorem create (h : Kept s) (parentIno : Nat) (name : CStr) {type : Nat} (htype : type < 2 ^ 8) :
    Kept (sfsCreate s parentIno name type).1 := by
  unfold sfsCreate
  rw [sfsReadInode_eq h.sb]
  by_cases hp : IsIno parentIno
  · rw [if_pos hp]
    dsimp only
    split
    · exact h
    · split
      · exact h
      · split
        · exact h
        · next newIno s₁ halloc =>
            obtain ⟨hino, hne, h₁⟩ := h.allocInode halloc
            split
            · exact (h₁.kept.freeInode hino hne).kept
            · next inode s₂ hnew =>
                obtain ⟨h₂, hslot⟩ := h₁.kept.newInode hino htype hnew
                have h₃ := h₂.kept.writeInode hslot hne
                have hall := (h₁.trans h₂).trans h₃
                split
                · exact (h₃.kept.freeInode hino hne).kept
                · next parent s₄ hadd =>
                    have hparent := (h.loose.slot parentIno).mono hall.used
                    obtain ⟨h₄, hslot₄, hroot₄, hcount⟩ := h₃.kept.addDentry hparent
                      (fun hp => hp ▸ h.loose.root.mono hall.used) hadd
                    by_cases hp : parentIno = rootIno
                    · subst hp
                      apply h₄.kept.writeRoot (hslot₄.resize _)
                      · exact { hroot₄ rfl with held := { (hroot₄ rfl).held with } }
                      · rw [(hall.trans h₄).root]
                        exact hcount
                    · exact (h₄.kept.writeInode (hslot₄.resize _) hp).kept
  · rw [if_neg hp]
    exact h

/-! ## Writing -/

theorem ensureBlock {i : Nat} {inode' : Inode} (h : Kept s) (hslot : SlotOk (image s.disk) ino inode)
    (hens : ensureBlock s inode i = some (s', inode')) :
    Later s s' ∧ SlotOk (image s'.disk) ino inode' ∧ inode'.size = inode.size := by
  unfold Fs.ensureBlock at hens
  split at hens
  · next hend =>
      split at hens
      · cases hens
      · next hi =>
          split at hens
          · cases hens
          · next b s₁ halloc =>
              cases hens
              obtain ⟨hb, -, himage, hlater⟩ := h.allocBlock halloc
              have hused : (image s'.disk).blockUsed b = true := by
                rw [himage]
                exact useBlock_self _ b
              exact ⟨hlater, (hslot.mono hlater.used).place (by omega) hend hb hused, rfl⟩
  · cases hens
    exact ⟨h.refl, hslot, rfl⟩

/-- The loop of `sfs_write_file` at any position. -/
theorem writeLoop (buf : Buf) (size offset : Nat) {fuel w : Nat} {block : Buf} (h : Kept s)
    (hslot : SlotOk (image s.disk) ino inode) :
    Later s (writeLoop buf size offset fuel s inode w block).1 ∧
      SlotOk (image (writeLoop buf size offset fuel s inode w block).1.disk) ino
        (writeLoop buf size offset fuel s inode w block).2.1 := by
  induction fuel generalizing s inode w block with
  | zero => exact ⟨h.refl, hslot⟩
  | succ fuel ih =>
      rw [Fs.writeLoop]
      dsimp only
      split
      · exact ⟨h.refl, hslot⟩
      · split
        · exact ⟨h.refl, hslot⟩
        · next s₁ inode₁ hens =>
            obtain ⟨h₁, hslot₁, -⟩ := h.ensureBlock hslot hens
            have hblock := (hslot₁.block (u32 (offset + w) / blockSize)).imp_right And.left
            generalize splice _ _ _ _ = block₁
            have h₂ := h₁.kept.write hblock block₁
            obtain ⟨h₃, hslot₃⟩ := @ih _ _ (w + min (blockSize - u32 (offset + w) % blockSize)
              (size - w)) block₁ h₂.kept (hslot₁.mono h₂.used)
            exact ⟨(h₁.trans h₂).trans h₃, hslot₃⟩

theorem sfsWriteFile (buf : Buf) (size offset : Nat) (h : Kept s)
    (hslot : SlotOk (image s.disk) ino inode) :
    Later s (sfsWriteFile s inode buf size offset).1 ∧
      SlotOk (image (sfsWriteFile s inode buf size offset).1.disk) ino
        (sfsWriteFile s inode buf size offset).2.1 := by
  have hloop := @writeLoop s inode ino buf size offset size 0 uninit h hslot
  unfold Fs.sfsWriteFile
  dsimp only
  refine ⟨hloop.1, ?_⟩
  split
  · exact hloop.2.resize _
  · exact hloop.2

theorem setFile (h : Kept s) (fd : Nat) {f : File}
    (hinside : f.inUse = true → f.ino = rootIno → f.offset ≤ (image s.disk).root.room) :
    Kept (s.setFile fd f) :=
  { h with
    inside := by
      intro fd' hfd' huse hino
      by_cases heq : fd' = fd
      · subst heq
        rw [setFile_same] at huse hino ⊢
        exact hinside huse hino
      · rw [setFile_other s f heq] at huse hino ⊢
        exact h.inside fd' hfd' huse hino }

theorem sfsWriteInode_setFile (s : FsState) (fd : Nat) (f : File) (inode : Inode) :
    sfsWriteInode (s.setFile fd f) inode = (sfsWriteInode s inode).setFile fd f := by
  unfold sfsWriteInode
  by_cases hskip : inode.ino = 0 ∨ s.sb.inodeCount ≤ inode.ino
  · rw [if_pos hskip]
    exact if_pos hskip
  · rw [if_neg hskip]
    exact if_neg hskip

/-- A write through a descriptor of the root: its position is inside the blocks of the root. -/
theorem writeFileRoot (h : Kept s) {offset size : Nat} (buf : Buf)
    (hpos : offset ≤ (image s.disk).root.room) :
    Kept (sfsWriteInode (Fs.sfsWriteFile s (image s.disk).root buf size offset).1
        (Fs.sfsWriteFile s (image s.disk).root buf size offset).2.1) ∧
      u32 (offset + (Fs.sfsWriteFile s (image s.disk).root buf size offset).2.2) ≤
        (image (sfsWriteInode (Fs.sfsWriteFile s (image s.disk).root buf size offset).1
          (Fs.sfsWriteFile s (image s.disk).root buf size offset).2.1).disk).root.room := by
  obtain ⟨hlater, hslot⟩ := h.sfsWriteFile buf size offset (h.loose.slot rootIno)
  obtain ⟨s₁, inode₁, n, heq, -, -, -, hwrote, -⟩ := @sfsWriteFile_spec s _ buf offset size h.sb
    h.loose.system_used h.loose.root.held hpos
  rw [show (image s.disk).inode rootIno = (image s.disk).root from rfl, heq] at hlater hslot
  rw [heq]
  dsimp only at hlater hslot ⊢
  have hlike : RootLike (image s₁.disk)
      { inode₁ with size := max (image s.disk).root.size (offset + n) } :=
    { ino_eq := hwrote.grows.ino_eq.trans h.loose.root.ino_eq
      type_eq := hwrote.grows.type_eq.trans h.loose.root.type_eq
      held := { hwrote.held with }
      count_pos := lt_of_lt_of_le h.loose.root.count_pos hwrote.grows.count_le }
  refine ⟨hlater.kept.writeRoot hslot hlike ?_, ?_⟩
  · rw [hlater.root]
    exact hwrote.grows.count_le
  · rw [image_sfsWriteInode hlater.kept.sb hslot.packed hlike.ino_eq (by decide), root_setInode]
    exact (Nat.mod_le _ _).trans hwrote.room

theorem sysWrite (h : Kept s) (fd : Int) (buf : Buf) (count : Int) :
    Kept (sysWrite s fd buf count).1 := by
  unfold Fs.sysWrite
  split
  · exact h
  · next f hf =>
      rw [sfsReadInode_eq h.sb]
      by_cases hino : IsIno f.ino
      · rw [if_pos hino]
        dsimp only
        rw [sfsWriteInode_setFile]
        obtain ⟨hfd, hfile, huse⟩ := openFile_some hf
        by_cases hroot : f.ino = rootIno
        · rw [hroot]
          obtain ⟨hkept, hinside⟩ := @writeFileRoot s h f.offset (u32OfInt count) buf
            (hfile ▸ h.inside _ hfd (hfile ▸ huse) (hfile ▸ hroot))
          exact hkept.setFile _ fun _ _ => hinside
        · obtain ⟨hlater, hslot⟩ := h.sfsWriteFile buf (u32OfInt count) f.offset
            (h.loose.slot f.ino)
          exact (hlater.kept.writeInode hslot hroot).kept.setFile _ fun _ hr => absurd hr hroot
      · rw [if_neg hino]
        exact h

theorem sysRead (h : Kept s) (fd : Int) (buf : Buf) (count : Int) :
    Kept (sysRead s fd buf count).1 := by
  unfold Fs.sysRead
  split
  · exact h
  · next f hf =>
      rw [sfsReadInode_eq h.sb]
      by_cases hino : IsIno f.ino
      · rw [if_pos hino]
        obtain ⟨hfd, hfile, huse⟩ := openFile_some hf
        apply h.setFile
        intro _ hroot
        have hroot : f.ino = rootIno := hroot
        rw [hroot]
        have hheld := h.loose.root.held
        obtain ⟨n, hn, hend, -⟩ := @sfsReadFile_spec s _ hheld.onData hheld.room_le
          (u32OfInt count) f.offset buf (hfile ▸ h.inside _ hfd (hfile ▸ huse) (hfile ▸ hroot))
        change u32 (f.offset + (sfsReadFile s.disk (image s.disk).root buf (u32OfInt count)
          f.offset).1) ≤ _
        rw [hn]
        exact (Nat.mod_le _ _).trans hend
      · rw [if_neg hino]
        exact h

theorem sysOpen (h : Kept s) (path : Option CStr) : Kept (sysOpen s path).1 := by
  unfold Fs.sysOpen
  split
  · exact h
  · split
    · exact h
    · dsimp only
      split
      · exact h
      · split
        · exact h
        · exact h.setFile _ fun _ _ => Nat.zero_le _

theorem sysClose (h : Kept s) (fd : Int) : Kept (sysClose s fd) := by
  unfold Fs.sysClose
  split
  · exact h
  · exact h.setFile _ fun huse => absurd huse (by simp)

end Kept

/-! ## Runs -/

/-- The calls of the file system, and `sfs_create` in any directory. -/
inductive DiskAct
  | create (parentIno : Nat) (name : CStr) (dir : Bool)
  | call (a : FsAct)

/-- `SFS_DIR` or `SFS_FILE`. -/
def sfsType (dir : Bool) : Nat := if dir then sfsDir else sfsFile

def diskStep (s : FsState) : DiskAct → Option FsState
  | .create parentIno name dir => some (sfsCreate s parentIno name (sfsType dir)).1
  | .call a => fsStep s a

theorem sfsType_lt (dir : Bool) : sfsType dir < 2 ^ 8 := by
  cases dir <;> decide

theorem Kept.call (h : Kept s) (a : FsAct) : Kept (fsCall s a).1 := by
  cases a with
  | create name => exact h.create rootIno name (by decide)
  | «open» path => exact h.sysOpen path
  | read fd buf count => exact h.sysRead fd buf count
  | write fd buf count => exact h.sysWrite fd buf count
  | close fd => exact h.sysClose fd

theorem Kept.step (h : Kept s) {a : DiskAct} (hs : diskStep s a = some s') : Kept s' := by
  cases a with
  | create parentIno name dir =>
      obtain rfl := Option.some.inj hs
      exact h.create parentIno name (sfsType_lt dir)
  | call a =>
      obtain rfl := Option.some.inj hs
      exact h.call a

theorem Kept.run {s₁ : FsState} {ok : FsState → DiskAct → Prop} (h₁ : Kept s₁)
    (h : Reach diskStep ok s₁ s) : Kept s := by
  apply h.invariant h₁
  intro s a s' hs _ hstep
  exact hs.step hstep

/-- No inode but the one of the root has been written on a new file system. -/
theorem inode_fsBoot (s : FsState) (hne : ino ≠ rootIno) :
    (image (fsBoot s).disk).inode ino = Inode.zero := by
  have hformat : ∀ b, b = inodeTableStart ∨ b = inodeTableStart + 1 →
      (formatBlocks s).disk b = zeros := by
    rintro b (rfl | rfl)
    · unfold formatBlocks
      rw [write_disk_of_ne (by decide), write_disk_self (by decide)]
    · unfold formatBlocks
      rw [write_disk_self (by decide)]
  rw [image_fsBoot]
  change ((image (formatBlocks s).disk).setInode rootIno Inode.newRoot).inode ino = Inode.zero
  rw [setInode_other _ _ hne]
  simp only [image]
  split
  · next hino =>
      have htable := inodeTable_lt hino
      generalize (ino - 1) / inodesPerBlock = i at htable ⊢
      rw [hformat _ (by omega)]
      unfold Inode.decode Inode.zero zeros load32
      simp
  · rfl

theorem kept_fsBoot (s : FsState) : Kept (fsBoot s) := by
  have h := booted_fsBoot s
  have hroot : RootLike (image (fsBoot s).disk) Inode.newRoot := by
    refine ⟨rfl, rfl, ⟨(by decide : 1 ≤ sfsDirectBlocks), ?_, ?_, ?_⟩, (by decide : 0 < 1)⟩
    · intro k hk
      obtain rfl : k = 0 := Nat.lt_one_iff.mp hk
      decide
    · intro k hk
      obtain rfl : k = 0 := Nat.lt_one_iff.mp hk
      rw [h.blockUsed]
      decide
    · intro i hi j hj _
      exact (Nat.lt_one_iff.mp hi).trans (Nat.lt_one_iff.mp hj).symm
  refine ⟨h.sb, h.mounted, ⟨?_, ?_, ?_, ?_, ?_⟩, ?_⟩
  · rw [h.inodeUsed]
    decide
  · rw [h.inodeUsed]
    decide
  · intro b hb
    rw [h.blockUsed]
    simpa using hb.le
  · intro ino
    by_cases hino : ino = rootIno
    · subst hino
      have hnew : (image (fsBoot s).disk).inode rootIno = Inode.newRoot := h.root
      rw [hnew]
      refine ⟨packed_newRoot, .inr rfl, hroot.held.count_le, ?_⟩
      intro i
      by_cases hi : i = 0
      · subst hi
        exact .inr ⟨hroot.held.onData 0 (by decide), hroot.held.used 0 (by decide)⟩
      · exact .inl (Function.update_of_ne hi _ _)
    · have hpacked := image_packed (fsBoot s).disk ino
      rw [inode_fsBoot s hino] at hpacked ⊢
      exact ⟨hpacked, .inl rfl, Nat.zero_le _, fun _ => .inl rfl⟩
  · rw [h.root]
    exact hroot
  · intro fd hfd huse
    rw [h.closed fd hfd] at huse
    cases huse

theorem Kept.reach {s₀ : FsState} {ok : FsState → DiskAct → Prop}
    (h : Reach diskStep ok (fsBoot s₀) s) : Kept s :=
  (kept_fsBoot s₀).run h

end SRos.Fs
