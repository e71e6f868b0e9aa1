import SRos.Fs.Outage

/-!
# Power failures and the next boot

A power failure ends a call after some of its requests. What was in memory is gone, and the next
boot mounts what is on the disk.
-/

namespace SRos.Fs

/-- The memory of the file system when the machine has been switched on. -/
def powerOn (d : Disk) : FsState := { FsState.blank with disk := d }

/-- `kernel_main` formats the disk when it finds no file system on it. -/
def kernelBoot (s : FsState) : FsState :=
  let r := sfsMount s
  if r.2 < 0 then fsBoot r.1 else r.1

/-- The disk when the power fails after `n` requests of a call. -/
def cutDisk (s : FsState) (a : FsAct) (n : Nat) : Disk :=
  (Requests.machine.cut n (Requests.fsCall s a) ⟨s, []⟩).fs.disk

/-- A call returns, or the power fails in it and the machine boots again. -/
inductive PowerAct
  | call (a : FsAct)
  | cut (a : FsAct) (n : Nat)

/-- The call that is made. -/
def PowerAct.made : PowerAct → FsAct
  | .call a => a
  | .cut a _ => a

def powerStep (s : FsState) : PowerAct → Option FsState
  | .call a => some (fsCall s a).1
  | .cut a n => some (kernelBoot (powerOn (cutDisk s a n)))

def powerOk (s : FsState) (a : PowerAct) : Prop := fsOk s a.made

/-- The invariant of the runs. `used` are the allocated inodes, and the inode bitmap may have
others, which a power failure has left behind. -/
structure Steady (used : Nat → Bool) (s : FsState) : Prop where
  sb : s.sb = SuperBlock.new
  mounted : s.mounted = true
  super : SuperBlock.decode (s.disk 0) = SuperBlock.new
  sound : Sound used (image s.disk)
  opened : ∀ fd < maxFiles, (s.files fd).inUse = true →
    Allocated ((image s.disk).only used) (s.files fd).ino ∧
      ((s.files fd).ino ≠ rootIno →
        (s.files fd).offset ≤ ((image s.disk).inode (s.files fd).ino).room)

variable {s s' : FsState} {a : FsAct} {d : Disk} {used : Nat → Bool}

/-! ## The boot -/

theorem kernelBoot_super (h : SuperBlock.decode (d 0) = SuperBlock.new) :
    kernelBoot (powerOn d) = { powerOn d with
      sb := SuperBlock.new
      files := fun i =>
        if i < maxFiles then { (powerOn d).files i with inUse := false } else (powerOn d).files i
      mounted := true } := by
  have hread : blockRead (powerOn d).disk 0 uninit = d 0 := rfl
  unfold kernelBoot sfsMount
  simp only [hread, h]
  rw [if_neg (show ¬ SuperBlock.new.magic ≠ sfsMagic by decide)]
  rfl

theorem steady_kernelBoot (hsuper : SuperBlock.decode (d 0) = SuperBlock.new)
    (h : Sound used (image d)) : Steady used (kernelBoot (powerOn d)) := by
  rw [kernelBoot_super hsuper]
  refine ⟨rfl, rfl, hsuper, h, ?_⟩
  intro fd hfd huse
  simp only [if_pos hfd] at huse
  cases huse

/-- A disk without a file system is formatted. -/
theorem kernelBoot_format (h : (SuperBlock.decode (d 0)).magic ≠ sfsMagic) :
    ∃ s, kernelBoot (powerOn d) = fsBoot s := by
  have hread : blockRead (powerOn d).disk 0 uninit = d 0 := rfl
  unfold kernelBoot sfsMount
  simp only [hread, if_pos h]
  rw [if_pos (by decide)]
  exact ⟨_, rfl⟩

theorem fsBoot_super (s : FsState) : SuperBlock.decode ((fsBoot s).disk 0) = SuperBlock.new := by
  have hdisk : (fsBoot s).disk = (sfsFormat s).disk := by rw [fsBoot_eq]
  rw [hdisk, sfsFormat_eq, write_disk_of_ne (by decide), formatRoot_disk s (by decide) (by decide),
    (formatBlocks_disk s).1]
  exact decode_encode_new

theorem Booted.steady (h : Booted s) (hsuper : SuperBlock.decode (s.disk 0) = SuperBlock.new) :
    Steady (image s.disk).inodeUsed s where
  sb := h.sb
  mounted := h.mounted
  super := hsuper
  sound := h.inv.owned.sound
  opened := by
    intro fd hfd huse
    rw [h.closed fd hfd] at huse
    cases huse

/-! ## A call -/

namespace Steady

theorem file (h : Steady used s) {fd : Int} {f : File} (hf : openFile s fd = some f)
    (hnot : NotDir s fd) :
    IsUsed used (image s.disk) f.ino ∧ f.offset ≤ ((image s.disk).inode f.ino).room := by
  obtain ⟨hfd, rfl, huse⟩ := openFile_some hf
  obtain ⟨halloc, hpos⟩ := h.opened _ hfd huse
  have hne : (s.files fd.toNat).ino ≠ rootIno := by
    intro heq
    apply hnot _ (image s.disk).root hf
    · rw [sfsReadInode_eq h.sb, heq]
      rfl
    · exact h.sound.owned.entries.root_type
  exact ⟨⟨halloc, hne⟩, hpos hne⟩

theorem leaves (h : Steady used s) (hok : fsOk s a) :
    Requests.Leaves (Requests.After used s a) (Requests.fsCall s a) s := by
  apply Requests.leaves_fsCall h.sb h.sound
  rintro fd f hf ⟨buf, count, rfl⟩
  exact h.file hf hok

theorem cut_after (h : Steady used s) (hok : fsOk s a) (n : Nat) :
    Requests.After used s a (cutDisk s a n) :=
  h.leaves hok [] n

theorem call_after (h : Steady used s) (hok : fsOk s a) :
    Requests.After used s a (fsCall s a).1.disk := by
  have hend := (h.leaves hok []).finish
  obtain ⟨log', hrun⟩ := Requests.run_fsCall s a []
  rw [hrun] at hend
  exact hend

/-! The files that are open after the call. -/

variable {fd : Nat}

/-- What is open was allocated in front of the call, and its offset is inside the file. -/
def Table (used : Nat → Bool) (g g' : Image) (files : Nat → File) : Prop :=
  ∀ fd < maxFiles, (files fd).inUse = true →
    Allocated (g.only used) (files fd).ino ∧ ((files fd).ino ≠ rootIno →
      (files fd).offset ≤ (g'.inode (files fd).ino).room)

theorem Table.update {g g' : Image} {files : Nat → File} {f : File} (h : Table used g g' files)
    (hf : f.inUse = true → Allocated (g.only used) f.ino ∧
      (f.ino ≠ rootIno → f.offset ≤ (g'.inode f.ino).room)) :
    Table used g g' (Function.update files fd f) := by
  intro fd' hfd' huse
  by_cases heq : fd' = fd
  · subst heq
    rw [Function.update_self] at huse ⊢
    exact hf huse
  · rw [Function.update_of_ne heq] at huse ⊢
    exact h fd' hfd' huse

theorem table_after (h : Steady used s) (ha : Requests.After used s a d) :
    Table used (image s.disk) (image d) s.files := by
  intro fd hfd huse
  obtain ⟨halloc, hpos⟩ := h.opened fd hfd huse
  exact ⟨halloc, fun hne => (hpos hne).trans (ha.survives.room_le _ ⟨halloc, hne⟩)⟩

theorem table_open (h : Steady used s) (path : Option CStr) :
    (sysOpen s path).1.sb = s.sb ∧ (sysOpen s path).1.mounted = s.mounted ∧
      (sysOpen s path).1.disk = s.disk ∧
      Table used (image s.disk) (image s.disk) (sysOpen s path).1.files := by
  have hsame : Table used (image s.disk) (image s.disk) s.files := h.opened
  unfold sysOpen
  split
  · exact ⟨rfl, rfl, rfl, hsame⟩
  · split
    · exact ⟨rfl, rfl, rfl, hsame⟩
    · next name _ =>
        dsimp only
        split
        · exact ⟨rfl, rfl, rfl, hsame⟩
        · next hfound =>
            split
            · exact ⟨rfl, rfl, rfl, hsame⟩
            · refine ⟨rfl, rfl, rfl, hsame.update fun _ => ⟨?_, fun _ => Nat.zero_le _⟩⟩
              rcases sfsLookup_cases h.sb h.sound.rootOk name with ⟨k, hk, hmatch, -, hlookup⟩ |
                ⟨-, hlookup⟩
              · have hlive : (slot (image s.disk) (image s.disk).root k).ino ≠ 0 := by
                  unfold Dentry.matches at hmatch
                  simp only [Bool.and_eq_true, bne_iff_ne] at hmatch
                  exact hmatch.1
                have halloc := (h.sound.owned.entries.slot_cases hk).resolve_left hlive
                have hlt : (slot (image s.disk) (image s.disk).root k).ino < 134 := halloc.isIno.2
                rw [hlookup, u32OfInt_of_nonneg (by omega) (by omega), Int.toNat_natCast]
                exact halloc
              · rw [hlookup] at hfound
                omega

theorem table_read (h : Steady used s) {fd : Int} (hnot : NotDir s fd) (buf : Buf) (count : Int) :
    (sysRead s fd buf count).1.sb = s.sb ∧ (sysRead s fd buf count).1.mounted = s.mounted ∧
      (sysRead s fd buf count).1.disk = s.disk ∧
      Table used (image s.disk) (image s.disk) (sysRead s fd buf count).1.files := by
  have hsame : Table used (image s.disk) (image s.disk) s.files := h.opened
  unfold sysRead
  cases hf : openFile s fd with
  | none => exact ⟨rfl, rfl, rfl, hsame⟩
  | some f =>
      obtain ⟨hi, hpos⟩ := h.file hf hnot
      have hheld := h.sound.held hi.1
      have hroom := hheld.room_le
      obtain ⟨n, hn, hend, -⟩ := @sfsReadFile_spec s _ hheld.onData hroom (u32OfInt count) _ buf hpos
      simp only [sfsReadInode_eq h.sb, if_pos hi.1.isIno, hn]
      refine ⟨rfl, rfl, rfl, hsame.update fun _ => ⟨hi.1, fun _ => ?_⟩⟩
      rw [u32_of_lt (by omega)]
      exact hend

theorem table_write (h : Steady used s) {fd : Int} (hnot : NotDir s fd) (buf : Buf) (count : Int) :
    (sysWrite s fd buf count).1.sb = s.sb ∧ (sysWrite s fd buf count).1.mounted = s.mounted ∧
      Table used (image s.disk) (image (sysWrite s fd buf count).1.disk)
        (sysWrite s fd buf count).1.files := by
  have hsame := h.table_after (@call_after s (.write fd buf count) used h hnot)
  change Table _ _ (image (sysWrite s fd buf count).1.disk) _ at hsame
  cases hf : openFile s fd with
  | none =>
      simp only [sysWrite, hf] at hsame ⊢
      exact ⟨trivial, trivial, hsame⟩
  | some f =>
      obtain ⟨hi, hpos⟩ := h.file hf hnot
      have hheld := h.sound.held hi.1
      obtain ⟨s₁, inode₁, n, heq, htables, -, hn, hwrote, -⟩ := @sfsWriteFile_spec s _ buf
        f.offset (u32OfInt count) h.sb h.sound.owned.blocks.system_used hheld hpos
      have hroom := hwrote.held.room_le
      have hroom' := hwrote.room
      have hino := hwrote.grows.ino_eq.trans (h.sound.owned.blocks.ino_eq _ hi.1)
      have hpacked : ({ inode₁ with
          size := max ((image s.disk).inode f.ino).size (f.offset + n) } : Inode).Packed :=
        { hwrote.grows.packed hwrote.held (image_packed s.disk _) with
          size_lt := max_lt (image_packed s.disk f.ino).size_lt (by omega) }
      simp only [sysWrite, hf, sfsReadInode_eq h.sb, if_pos hi.1.isIno, heq] at hsame ⊢
      rw [u32_of_lt (by omega)] at hsame ⊢
      generalize hs₂ : s₁.setFile fd.toNat { f with offset := f.offset + n } = s₂ at hsame ⊢
      have hsb₂ : s₂.sb = SuperBlock.new := by
        rw [← hs₂]
        exact htables.sb.trans h.sb
      have htables₂ := sameTables_sfsWriteInode s₂
        { inode₁ with size := max ((image s.disk).inode f.ino).size (f.offset + n) }
      refine ⟨htables₂.sb.trans (hsb₂.trans h.sb.symm), htables₂.mounted.trans ?_, ?_⟩
      · rw [← hs₂]
        exact htables.mounted
      · have hfiles : s₂.files = Function.update s.files fd.toNat { f with offset := f.offset + n } := by
          rw [← hs₂, ← htables.files]
          rfl
        rw [htables₂.files, hfiles]
        refine hsame.update fun _ => ⟨hi.1, fun _ => ?_⟩
        rw [image_sfsWriteInode hsb₂ hpacked hino hi.1.isIno, setInode_self]
        exact hwrote.room

theorem table_call (h : Steady used s) (hok : fsOk s a) :
    (fsCall s a).1.sb = s.sb ∧ (fsCall s a).1.mounted = s.mounted ∧
      Table used (image s.disk) (image (fsCall s a).1.disk) (fsCall s a).1.files := by
  have hsame : Table used (image s.disk) (image s.disk) s.files := h.opened
  cases a with
  | create name =>
      obtain ⟨htables, -⟩ := sfsCreate_spec h.sb h.sound.rootOk name
      have htable := h.table_after (h.call_after (a := .create name) trivial)
      rw [← htables.files] at htable
      exact ⟨htables.sb, htables.mounted, htable⟩
  | «open» path =>
      obtain ⟨hsb, hmounted, hdisk, htable⟩ := h.table_open path
      exact ⟨hsb, hmounted, by rw [fsCall, hdisk]; exact htable⟩
  | read fd buf count =>
      obtain ⟨hsb, hmounted, hdisk, htable⟩ := h.table_read hok buf count
      exact ⟨hsb, hmounted, by simp only [fsCall, hdisk]; exact htable⟩
  | write fd buf count => exact h.table_write hok buf count
  | close fd =>
      simp only [fsCall, sysClose]
      split
      · exact ⟨rfl, rfl, hsame⟩
      · exact ⟨rfl, rfl, hsame.update fun huse => by cases huse⟩

/-- A step of a run keeps the invariant, and the disk is as some of the writes of the call leave
it. -/
theorem step (h : Steady used s) {x : PowerAct} (hok : powerOk s x)
    (hs : powerStep s x = some s') :
    (∃ used', Steady used' s') ∧ Survives (IsUsed used (image s.disk)) s x.made (image s.disk)
      (image s'.disk) := by
  cases x with
  | call a =>
      obtain rfl := Option.some.inj hs
      have ha := h.call_after hok
      obtain ⟨hsb, hmounted, htable⟩ := h.table_call hok
      obtain ⟨used', hmono, hsound⟩ := ha.sound
      have hsuper : (fsCall s a).1.disk 0 = s.disk 0 := ha.super
      refine ⟨⟨used', hsb.trans h.sb, hmounted.trans h.mounted, ?_, hsound, ?_⟩, ha.survives⟩
      · rw [hsuper]
        exact h.super
      · intro fd hfd huse
        obtain ⟨halloc, hpos⟩ := htable fd hfd huse
        exact ⟨⟨halloc.isIno, hmono _ halloc.used⟩, hpos⟩
  | cut a n =>
      obtain rfl := Option.some.inj hs
      have ha := h.cut_after hok n
      obtain ⟨used', -, hsound⟩ := ha.sound
      have hsame : cutDisk s a n 0 = s.disk 0 := ha.super
      have hsuper : SuperBlock.decode (cutDisk s a n 0) = SuperBlock.new := by
        rw [hsame]
        exact h.super
      have hboot := steady_kernelBoot hsuper hsound
      refine ⟨⟨used', hboot⟩, ?_⟩
      rw [kernelBoot_super hsuper]
      exact ha.survives

theorem run (h : Steady used s) (hreach : Reach powerStep powerOk s s') :
    ∃ used', Steady used' s' := by
  apply hreach.invariant (P := fun t => ∃ used', Steady used' t) ⟨used, h⟩
  rintro t x t' ⟨used', ht⟩ hok hs
  exact (ht.step hok hs).1

end Steady

/-! ## Runs -/

theorem steady_fresh (hnew : (SuperBlock.decode (d 0)).magic ≠ sfsMagic)
    (h : Reach powerStep powerOk (kernelBoot (powerOn d)) s) : ∃ used, Steady used s := by
  obtain ⟨s₀, hboot⟩ := kernelBoot_format hnew
  rw [hboot] at h
  exact ((booted_fsBoot s₀).steady (fsBoot_super s₀)).run h

theorem sfsMount_super (h : SuperBlock.decode (d 0) = SuperBlock.new) :
    (sfsMount (powerOn d)).2 = 0 := by
  have hread : blockRead (powerOn d).disk 0 uninit = d 0 := rfl
  unfold sfsMount
  simp only [hread, h]
  rw [if_neg (by decide)]

def powerOkTest (s : FsState) (a : PowerAct) : Bool := fsOkTest s a.made

end SRos.Fs
