import SRos.Fs.Content
import SRos.Fs.Paths

/-!
# Opening a path again

A program opens a path, reads or writes the file and closes it. The descriptor is free again, and as
writing to a file leaves the root directory alone, the path leads to the same file the next time.
-/

namespace SRos.Fs

variable {s s' s₀ : FsState} {f : File}

/-- A state that file system calls lead to from `sfs_format` and `sfs_mount` on. -/
abbrev Running (s₀ s : FsState) : Prop := Reach fsStep dataOk (fsBoot s₀) s

theorem Running.call (h : Running s₀ s) {a : FsAct} (hok : dataOk s a) :
    Running s₀ (fsCall s a).1 :=
  .step h hok rfl

theorem Running.dataInv (h : Running s₀ s) : DataInv s := (DataInv.reach h).1

/-- A name leads to the same inode when the root directory has the same entries. -/
theorem FsInv.lookup_congr (h : FsInv s) (h' : FsInv s')
    (hsame : SameEntries (image s.disk) (image s'.disk)) (name : CStr) :
    sfsLookup s' rootIno name = sfsLookup s rootIno name := by
  have hroot := h'.owned.rootOk
  rcases sfsLookup_cases h.sb h.owned.rootOk name with ⟨k, hk, hmatch, hbelow, heq⟩ |
    ⟨habsent, heq⟩
  · rw [heq, ← hsame.slot k hk]
    have hlt := hroot.slot_lt k (by rw [hsame.count]; exact hk)
    have hmax : maxInodes < 2 ^ 31 := by decide
    rw [sfsLookup_eq h'.sb hroot.type_eq hroot.held.onData (by rw [hsame.count]; exact hk)
      (by rw [hsame.slot k hk]; exact hmatch)
      (fun j hj => by rw [hsame.slot j (hj.trans hk)]; exact hbelow j hj)]
    exact int32_of_lt (by omega)
  · rcases sfsLookup_cases h'.sb hroot name with ⟨k, hk, hmatch, -, -⟩ | ⟨-, heq'⟩
    · rw [hsame.count] at hk
      rw [hsame.slot k hk, habsent k hk] at hmatch
      cases hmatch
    · rw [heq, heq']

/-- `sys_open` does the same where lookups and free descriptors are the same. -/
theorem sysOpen_congr {path : Option CStr} (hmounted : s'.mounted = s.mounted)
    (hlookup : ∀ name, sfsLookup s' rootIno name = sfsLookup s rootIno name)
    (hfree : ∀ fd, (s'.files fd).inUse = (s.files fd).inUse) {fd : Nat}
    (hopen : sysOpen s path = (s.setFile fd f, (fd : Int))) :
    sysOpen s' path = (s'.setFile fd f, (fd : Int)) := by
  have hfailed : (s, (-1 : Int)) ≠ (s.setFile fd f, (fd : Int)) := by
    intro heq
    have hfd := congrArg Prod.snd heq
    simp only at hfd
    omega
  unfold sysOpen at hopen ⊢
  rw [hmounted]
  split at hopen
  · exact absurd hopen hfailed
  · next hm =>
      rw [if_neg hm]
      cases hparse : pathParse path with
      | none =>
          rw [hparse] at hopen
          exact absurd hopen hfailed
      | some name =>
          simp only [hparse, hlookup, hfree] at hopen ⊢
          split at hopen
          · exact absurd hopen hfailed
          · next hino =>
              rw [if_neg hino]
              split at hopen
              · exact absurd hopen hfailed
              · next fd' hfind =>
                  obtain ⟨hset, hfd⟩ := Prod.mk.inj hopen
                  obtain rfl := Int.natCast_inj.mp hfd
                  have hfile := congrArg (FsState.files · fd') hset
                  simp only [setFile_same] at hfile
                  rw [hfile]

theorem setFile_setFile (s : FsState) (fd : Nat) (f f' : File) :
    (s.setFile fd f).setFile fd f' = s.setFile fd f' := by
  simp [FsState.setFile]

/-- A descriptor that is open for a moment leaves no trace in the abstract file system. -/
theorem abstraction_closed {fd : Nat} (hfd : fd < maxFiles) (hfree : (s.files fd).inUse = false)
    (hclosed : f.inUse = false) : abstraction (s.setFile fd f) = abstraction s := by
  rw [abstraction_setFile s hfd, hclosed, if_neg (by simp)]
  unfold AbsFs.setFd
  rw [← abstraction_fds_free hfree, Function.update_eq_self]

theorem isFile_of_content {i : Nat} {c : List UInt8} (h : (abstraction s).content i = some c) :
    IsFile (image s.disk) i ∧ contentOf (image s.disk) i = c := by
  change contents (image s.disk) i = some c at h
  unfold contents at h
  split at h
  · next hfile => exact ⟨hfile, Option.some.inj h⟩
  · cases h

theorem DataInv.notDir (h : DataInv s) {fd : Int} {c : List UInt8} (hf : openFile s fd = some f)
    (hc : (abstraction s).content f.ino = some c) : NotDir s fd := by
  intro f' inode hf' hread
  obtain rfl := Option.some.inj (hf.symm.trans hf')
  obtain ⟨hisFile, -⟩ := isFile_of_content hc
  rw [sfsReadInode_eq h.inv.sb, if_pos hisFile.1] at hread
  obtain rfl := Option.some.inj hread
  rw [hisFile.2.2]
  decide

/-- Reading the next bytes of a file. -/
theorem DataInv.read_part (h : DataInv s) {fd : Nat} {c : List UInt8} (hf : openFile s fd = some f)
    (hc : (abstraction s).content f.ino = some c) (buf : Buf) {count : Nat} (hlt : count < 2 ^ 31) :
    ∃ n buf', sysRead s fd buf count =
        (s.setFile fd { f with offset := f.offset + n }, buf', (n : Int)) ∧
      f.offset ≤ c.length ∧ n = min count (c.length - f.offset) ∧
      (List.range n).map buf' = (c.drop f.offset).take count := by
  have hnot := h.notDir hf hc
  obtain ⟨hisFile, rfl⟩ := isFile_of_content hc
  have hne := h.inv.ino_ne_root hf hnot
  obtain ⟨hfd, hfile, huse⟩ := openFile_some hf
  have hoffset : f.offset ≤ ((image s.disk).inode f.ino).size := by
    rw [hfile] at huse hne ⊢
    exact h.offset_le _ hfd huse hne
  obtain ⟨n, buf', heq, -, hbuf, hexact⟩ := h.inv.sysRead_spec hf hne buf count
  have hn := hexact (h.size_le _ hisFile) hoffset (by omega) (by omega)
  rw [Int.toNat_natCast] at hn
  refine ⟨n, buf', heq, by rwa [length_contentOf], by rwa [length_contentOf], ?_⟩
  apply List.ext_getElem
  · simp only [List.length_map, List.length_range, List.length_take, List.length_drop,
      length_contentOf]
    exact hn
  · intro i hi hi'
    simp only [List.length_map, List.length_range] at hi
    simp only [List.getElem_map, List.getElem_range, List.getElem_take, List.getElem_drop,
      contentOf]
    rw [hbuf i, if_pos hi]

/-- A write to an open descriptor. -/
theorem AbsFs.Step.write_inv {x x' : AbsFs} {fd count r : Int} {buf buf' : Buf} {i offset : Nat}
    (h : Step x (.write fd buf count) r buf' x') (hfd : x.lookupFd fd = some (i, offset)) :
    ∃ (n : Nat) (c : List UInt8), r = n ∧ x.content i = some c ∧ (n : Int) ≤ count ∧
      x'.content = Function.update x.content i (some (overwrite c offset n buf)) := by
  cases h with
  | writeFailed hnone =>
      rw [hnone] at hfd
      cases hfd
  | write hfd' hc _ hn =>
      rw [hfd'] at hfd
      cases hfd
      exact ⟨_, _, rfl, hc, hn, rfl⟩

theorem AbsFs.Step.create_cases {x x' : AbsFs} {name : CStr} {r : Int} {buf' : Buf}
    (h : Step x (.create name) r buf' x') :
    (r = -1 ∧ x' = x) ∨ ∃ i, r = 0 ∧ x.content i = none ∧ x' = x.setContent i [] := by
  cases h with
  | createFailed => exact .inl ⟨rfl, rfl⟩
  | created hnew => exact .inr ⟨_, rfl, hnew, rfl⟩

/-- What a call that creates a file leaves of the others, and what a new file starts with. -/
theorem AbsFs.Step.create_content {x x' : AbsFs} {name : CStr} {r : Int} {buf' : Buf} {i : Nat}
    {c : List UInt8} (h : Step x (.create name) r buf' x') (hc : x'.content i = some c) :
    c = (x.content i).getD [] := by
  rcases h.create_cases with ⟨-, rfl⟩ | ⟨ino, -, hnew, rfl⟩
  · rw [hc]
    rfl
  · change Function.update x.content ino (some []) i = some c at hc
    by_cases heq : i = ino
    · rw [heq, Function.update_self] at hc
      rw [heq, hnew]
      exact (Option.some.inj hc).symm
    · rw [Function.update_of_ne heq] at hc
      rw [hc]
      rfl

/-- Writing the first bytes of a list. -/
theorem AbsFs.overwrite_start (c str : List UInt8) {n : Nat} (hn : n ≤ str.length) :
    overwrite c 0 n (str.getD · 0) = str.take n ++ c.drop n := by
  have hbytes : (List.range n).map (str.getD · 0) = str.take n := by
    apply List.ext_getElem
    · rw [List.length_map, List.length_range, List.length_take, min_eq_left hn]
    · intro i hi hi'
      simp only [List.length_map, List.length_range] at hi
      rw [List.getElem_map, List.getElem_range, List.getElem_take,
        List.getD_eq_getElem _ _ (hi.trans_le hn)]
  unfold overwrite
  rw [hbytes, List.take_zero, List.nil_append, Nat.zero_add]

/-- Opening a file, writing to its start and closing it. The path leads to the file again. -/
theorem Running.rewrite (h : Running s₀ s) {path : Option CStr} {fd : Nat} {c : List UInt8}
    (hopen : sysOpen s path = (s.setFile fd f, (fd : Int))) (hfd : fd < maxFiles)
    (hfree : (s.files fd).inUse = false) (huse : f.inUse = true) (hstart : f.offset = 0)
    (hc : (abstraction s).content f.ino = some c) (buf : Buf) {count : Nat}
    (hlt : count < 2 ^ 31) :
    ∃ s' n, sysClose (sysWrite (s.setFile fd f) fd buf count).1 fd = s' ∧ n ≤ count ∧
      (n < count → NoRoom s' f.ino) ∧ Running s₀ s' ∧
      abstraction s' = (abstraction s).setContent f.ino (AbsFs.overwrite c 0 n buf) ∧
      sysOpen s' path = (s'.setFile fd f, (fd : Int)) := by
  have hrun : Running s₀ (s.setFile fd f) := by
    have hnext : Running s₀ (sysOpen s path).1 := h.call (show dataOk s (.open path) from trivial)
    rwa [hopen] at hnext
  have hopened := hrun.dataInv
  have hf : openFile (s.setFile fd f) fd = some f := Kept.openFile_setFile _ hfd huse
  have hnot := hopened.notDir hf hc
  have hok : dataOk (s.setFile fd f) (.write fd buf count) := ⟨hnot, by omega, by omega⟩
  have hwritten : Running s₀ (sysWrite (s.setFile fd f) fd buf count).1 := hrun.call hok
  have hne := hopened.inv.ino_ne_root hf hnot
  obtain ⟨-, hstep, hshort⟩ := hopened.write buf hnot hok.2.1 hok.2.2
  have hentries := hopened.inv.write_entries hf hne buf count
  obtain ⟨s₁, g₁, inode₁, n, heq, -, hmounted, hfiles, -⟩ :=
    hopened.inv.sysWrite_spec hf hne buf count
  rw [heq] at hwritten hstep hshort hentries ⊢
  rw [Int.toNat_natCast, setFile_setFile] at hfiles
  have hclosed : Running s₀ (sysClose s₁ fd) :=
    hwritten.call (show dataOk s₁ (.close fd) from trivial)
  have hclose : sysClose s₁ fd =
      s₁.setFile fd { f with offset := f.offset + n, inUse := false } := by
    unfold sysClose
    rw [if_neg (by omega), Int.toNat_natCast, hfiles, setFile_same]
  have hfiles' : (sysClose s₁ fd).files =
      (s.setFile fd { f with offset := f.offset + n, inUse := false }).files := by
    rw [hclose]
    simp [FsState.setFile, hfiles]
  obtain ⟨m, c', hm, hc', hle, hcontent⟩ := hstep.write_inv (lookupFd_some hf)
  obtain rfl := Int.natCast_inj.mp hm
  obtain rfl := Option.some.inj (hc.symm.trans hc')
  rw [hstart] at hcontent
  have hdisk : (sysClose s₁ fd).disk = s₁.disk := by rw [hclose]; rfl
  refine ⟨_, n, rfl, by omega, ?_, hclosed, ?_, ?_⟩
  · intro hlt
    have hroom := hshort f hf (by simpa using hlt)
    rw [hclose]
    exact hroom
  · apply AbsFs.ext
    · change contents (image (sysClose s₁ fd).disk) = _
      rw [hdisk]
      exact hcontent
    · have hsame := congrArg AbsFs.fds (@abstraction_closed s
        { f with offset := f.offset + n, inUse := false } fd hfd hfree rfl)
      unfold abstraction at hsame ⊢
      simp only [hfiles'] at hsame ⊢
      exact hsame
  · apply sysOpen_congr ?_ ?_ ?_ hopen
    · rw [hclose]
      exact hmounted
    · intro name
      rw [← hdisk] at hentries
      exact h.dataInv.inv.lookup_congr hclosed.dataInv.inv hentries name
    · intro fd'
      rw [hfiles']
      by_cases hsame : fd' = fd
      · rw [hsame, setFile_same, hfree]
      · rw [setFile_other s _ hsame]

end SRos.Fs
