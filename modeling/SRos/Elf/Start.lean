import SRos.Elf.Frames
import SRos.Paging.Boot

/-!
# Which programs are started as their files say

The bytes that the loader puts in memory are those of the file, except where a segment takes a
page on which an earlier one has bytes. What is there then is what the frame held before.
-/

namespace SRos.Elf

open Bytes Fs Paging

/-- The files that the loader is for. -/
structure WellFormed (file : List UInt8) : Prop where
  entsize : (Ehdr.ofFile file).ePhentsize = 32
  sizes : ∀ ph ∈ loadable file, ph.pFilesz ≤ ph.pMemsz
  inside : ∀ ph ∈ loadable file, ph.pOffset + ph.pFilesz ≤ file.length
  user : ∀ ph ∈ loadable file, ∀ v, ph.holds v → 0x400000 ≤ v ∧ v < 0xDFFFC000
  disjoint : (loadable file).Pairwise Phdr.Disjoint

/-- The program is in memory as the file says, with its stack. -/
structure Started (file : List UInt8) (regs : Registers) (s : Vm) : Prop where
  bytes : ∀ ph ∈ loadable file, ∀ i < ph.pMemsz,
    s.read8 (ph.pVaddr + i) = some (if i < ph.pFilesz then file.getD (ph.pOffset + i) 0 else 0)
  entry : regs.eip = (Ehdr.ofFile file).eEntry
  stack : ∀ v, 0xDFFFC000 ≤ v → v < 0xE0000000 → (s.translate v).isSome = true

/-- A memory that differs from the one of `s` in free frames only. -/
def SameButFree (s : Vm) (m : Nat → UInt8) : Prop := ∀ a, a / 4096 * 4096 ∉ s.free → m a = s.mem a

section Start

variable {own : Nat → Kind} {s s' : Vm} {fs : FsState} {path : CStr} {ino : Nat}
  {regs regs' : Registers} {file : List UInt8} {m : Nat → UInt8}

theorem loadSegments_hasPhdr {phoff : Nat} {is : List Nat} {r : Int}
    (hs : loadSegments fs ino phoff is s = some (r, s')) (hr : 0 ≤ r) :
    ∀ i ∈ is, hasPhdr fs ino phoff i := by
  induction is generalizing s with
  | nil => simp
  | cons i is ih =>
      unfold loadSegments at hs
      dsimp only at hs
      split at hs
      · obtain ⟨rfl, -⟩ : -1 = r ∧ s = s' := by simpa using hs
        omega
      · next hread =>
          have hhas : hasPhdr fs ino phoff i := by
            unfold hasPhdr
            omega
          suffices hrest : ∃ t, loadSegments fs ino phoff is t = some (r, s') by
            obtain ⟨t, ht⟩ := hrest
            intro j hj
            rcases List.mem_cons.mp hj with rfl | hj
            · exact hhas
            · exact ih ht j hj
          split at hs
          · exact ⟨s, hs⟩
          · obtain ⟨⟨r₁, s₁⟩, -, hs⟩ := Option.bind_eq_some_iff.mp hs
            dsimp only at hs
            split at hs
            · obtain ⟨rfl, -⟩ : -1 = r ∧ s₁ = s' := by simpa using hs
              omega
            · exact ⟨s₁, hs⟩

/-- A file that has been loaded has all its headers. -/
theorem hasPhdr_of_exec (hfound : lookupPath fs path = some ino)
    (hs : elfLoadAndExec fs path regs s = some (0, regs', s')) :
    hasEhdr fs ino ∧ ∀ i < (ehdrAt fs ino).ePhnum, hasPhdr fs ino (ehdrAt fs ino).ePhoff i := by
  unfold elfLoadAndExec at hs
  rw [hfound] at hs
  dsimp only at hs
  split at hs
  · simp at hs
  · next hheader =>
      have hhas : hasEhdr fs ino := by
        unfold hasEhdr
        omega
      refine ⟨hhas, ?_⟩
      split at hs
      · simp at hs
      · obtain ⟨⟨r₁, s₁⟩, hs₁, hs⟩ := Option.bind_eq_some_iff.mp hs
        dsimp only at hs
        split at hs
        · simp at hs
        · next hneg =>
            exact fun i hi => loadSegments_hasPhdr hs₁ (by omega) i (List.mem_range.mpr hi)

/-- The segments of a file that is to be loaded are where the loader expects them. -/
theorem WellFormed.segmentsInUser (h : WellFormed (contentOf (image fs.disk) ino)) (hfs : DataInv fs)
    (hfile : IsFile (image fs.disk) ino) (hhas : hasEhdr fs ino)
    (hphdrs : ∀ i < (ehdrAt fs ino).ePhnum, hasPhdr fs ino (ehdrAt fs ino).ePhoff i) :
    SegmentsInUser fs ino := by
  intro i hi _ htype
  have hmem : phdrAt fs ino (ehdrAt fs ino).ePhoff i ∈ loadable (contentOf (image fs.disk) ino) := by
    rw [← segments_eq hfs hfile hhas hphdrs h.entsize]
    unfold segments segmentsAt
    simp only [List.mem_filter, List.mem_map, List.mem_range, beq_iff_eq]
    exact ⟨⟨i, hi, rfl⟩, htype⟩
  generalize phdrAt fs ino (ehdrAt fs ino).ePhoff i = ph at hmem
  refine ⟨h.sizes ph hmem, fun hpos => ?_, fun hpos => ?_⟩
  · exact (h.user ph hmem ph.pVaddr ⟨le_refl _, by omega⟩).1
  · have hlast := h.user ph hmem (ph.pVaddr + ph.pMemsz - 1) ⟨by omega, by omega⟩
    omega

theorem Loading.read8 {own₀ : Nat → Kind} {s₀ : Vm} {img : Nat → Option UInt8} {fresh : Nat → Option Nat}
    {v : Nat} {b : UInt8} (h : Loading own₀ s₀ img fresh own s) (hv : UserPage (v / 4096))
    (himg : img v = some b) : s.read8 v = some b := by
  have hsplit : v = v / 4096 * 4096 + v % 4096 := by omega
  have ho : v % 4096 < 4096 := Nat.mod_lt v (by decide)
  rw [hsplit] at himg ⊢
  cases hf : fresh (v / 4096) with
  | none =>
      obtain ⟨rfl, hread⟩ := h.zeros _ hv hf _ ho b himg
      exact hread
  | some f =>
      rw [Vm.read8, h.maps _ f hf _ ho, Option.map_some, h.bytes _ f hf _ ho, himg]
      rfl

/-- Where the image says nothing of a new page, there is what was in the frame. -/
theorem Loading.read8_stale {own₀ : Nat → Kind} {s₀ : Vm} {img : Nat → Option UInt8}
    {fresh : Nat → Option Nat} {v : Nat} (h : Loading own₀ s₀ img fresh own s)
    (hfresh : (fresh (v / 4096)).isSome = true) (himg : img v = none) :
    ∃ f ∈ s₀.free, s.read8 v = some (s₀.mem (f + v % 4096)) := by
  have hsplit : v = v / 4096 * 4096 + v % 4096 := by omega
  have ho : v % 4096 < 4096 := Nat.mod_lt v (by decide)
  obtain ⟨f, hf⟩ := Option.isSome_iff_exists.mp hfresh
  rw [hsplit] at himg
  refine ⟨f, (h.taken _ f hf).2.2, ?_⟩
  nth_rewrite 1 [hsplit]
  rw [Vm.read8, h.maps _ f hf _ ho, Option.map_some, h.bytes _ f hf _ ho, himg]
  rfl

/-- What the loader makes of a well-formed file. -/
theorem exec_image (h : Laid own s) (hfs : DataInv fs) (hfound : lookupPath fs path = some ino)
    (hfile : IsFile (image fs.disk) ino) (hcontent : contentOf (image fs.disk) ino = file)
    (hwf : WellFormed file) (hrun : elfLoadAndExec fs path regs s = some (0, regs', s')) :
    ∃ img fresh own', Loading own s img fresh own' s' ∧
      regs'.eip = (Ehdr.ofFile file).eEntry ∧ (∀ k < 4, (fresh (0xDFFFF - k)).isSome = true) ∧
      (∀ ph ∈ loadable file, ∀ v, onPages ph.pVaddr ph.pFilesz v →
        (fresh (v / 4096)).isSome = true) ∧
      ∀ v < 0xDFFFC000, img v = imageOf (Phdr.byte file) (loadable file) (fun _ => none) v := by
  subst hcontent
  obtain ⟨hhas, hphdrs⟩ := hasPhdr_of_exec hfound hrun
  have hsegs := segments_eq hfs hfile hhas hphdrs hwf.entsize
  obtain ⟨img, fresh, own', hload, -, hexec⟩ := elfLoadAndExec_loading h (fun ino' hfound' _ => by
    rw [hfound] at hfound'
    obtain rfl := Option.some.inj hfound'
    exact hwf.segmentsInUser hfs hfile hhas hphdrs) hrun
  obtain ⟨ino', hdone⟩ := hexec rfl
  have hsame := hdone.found
  rw [hfound] at hsame
  obtain rfl := Option.some.inj hsame
  have hpages := hdone.pages
  have himage := hdone.image (Phdr.byte (contentOf (image fs.disk) ino))
  rw [hsegs] at hpages himage
  refine ⟨img, fresh, own', hload, ?_, hdone.stack, hpages, ?_⟩
  · rw [hdone.regs, ← (ehdrAt_eq hfs hfile hhas).1]
    rfl
  · exact himage fun ph hph => reads_segment hfs hfile (hwf.inside ph hph)

/-! ## The contents of free frames -/

theorem SameButFree.frame (h : SameButFree s m) (hlaid : Laid own s) {f o : Nat}
    (hf : (own f).structural = true) (ho : o < 4096) : m (f + o) = s.mem (f + o) := by
  have hnone : own f ≠ .none := fun heq => by simp [heq, Kind.structural] at hf
  have haligned := (hlaid.isFrame hnone).1
  apply h
  rw [show (f + o) / 4096 * 4096 = f by omega]
  intro hmem
  rw [hlaid.free_of_mem hmem] at hf
  cases hf

theorem SameButFree.laid (h : SameButFree s m) (hlaid : Laid own s) :
    Laid own { s with mem := m } :=
  hlaid.write fun _ hf _ ho => h.frame hlaid hf ho

theorem SameButFree.word (h : SameButFree s m) (hlaid : Laid own s) {f j : Nat}
    (hf : (own f).structural = true) (hj : j < 1024) :
    load32 m (f + 4 * j) = load32 s.mem (f + 4 * j) := by
  apply load32_congr
  intro a hlow hhigh
  have hbyte := @SameButFree.frame own s m h hlaid f (a - f) hf (by omega)
  rwa [show f + (a - f) = a by omega] at hbyte

theorem SameButFree.alike (h : SameButFree s m) (hlaid : Laid own s) :
    Alike s { s with mem := m } := by
  obtain ⟨k, hk⟩ := hlaid.cr3
  have hpde : ∀ i < 1024, pdeAt m s.cr3 i = pdeAt s.mem s.cr3 i :=
    fun i hi => h.word hlaid (by rw [hk]; rfl) hi
  refine ⟨⟨own, hlaid⟩, ⟨own, h.laid hlaid⟩, rfl, ?_, ?_⟩
  · intro i _ hi
    dsimp only
    rw [hpde i (by omega)]
  · intro p hp
    have hentry := hp.entry
    unfold isMapped mapped
    dsimp only
    rw [hpde _ (by omega)]
    by_cases hpres : present (pdeAt s.mem s.cr3 (p / 1024)) = true
    · have htable := hlaid.entries _ k hk _ hentry.1 hentry.2 hpres
      have hpte : pteAt m s.cr3 (p / 1024) (p % 1024) = pteAt s.mem s.cr3 (p / 1024) (p % 1024) := by
        rw [pteAt, pteAt, hpde _ (by omega)]
        exact h.word hlaid (by rw [htable]; rfl) (Nat.mod_lt p (by decide))
      rw [hpte]
    · simp [hpres]

theorem pairwise_of_split {α : Type} {R : α → α → Prop} {l : List α}
    (h : ∀ before a after, l = before ++ a :: after → ∀ b ∈ after, R a b) : l.Pairwise R := by
  induction l with
  | nil => exact .nil
  | cons a l ih =>
      refine .cons (h [] a l rfl) (ih fun before b after hsplit => ?_)
      exact h (a :: before) b after (by rw [hsplit]; rfl)

/-- The program is started as its file says if no segment takes a page from an earlier one. -/
theorem started_of_apart (h : Laid own s) (hfs : DataInv fs) (hfound : lookupPath fs path = some ino)
    (hfile : IsFile (image fs.disk) ino) (hcontent : contentOf (image fs.disk) ino = file)
    (hwf : WellFormed file) (hrun : elfLoadAndExec fs path regs s = some (0, regs', s'))
    (hapart : (loadable file).Pairwise fun ph qh => ¬ ph.SharesPage qh) :
    Started file regs' s' := by
  obtain ⟨img, fresh, own', hload, hentry, hstack, -, himage⟩ :=
    exec_image h hfs hfound hfile hcontent hwf hrun
  refine ⟨?_, hentry, ?_⟩
  · intro ph hph i hi
    have hholds : ph.holds (ph.pVaddr + i) := ⟨by omega, by omega⟩
    have huser := hwf.user ph hph _ hholds
    obtain ⟨before, after, hsplit⟩ := List.append_of_mem hph
    have hkept : ¬ ∃ qh ∈ after, onPages qh.pVaddr qh.pFilesz (ph.pVaddr + i) := by
      rintro ⟨qh, hqh, hpages⟩
      obtain ⟨w, hw, hpage⟩ := Phdr.exists_inFile hpages
      rw [hsplit] at hapart
      have hcons := (List.pairwise_append.mp hapart).2.1
      exact (List.pairwise_cons.mp hcons).1 qh hqh ⟨_, w, hholds, hw, hpage⟩
    have hbyte := himage (ph.pVaddr + i) huser.2
    rw [imageOf_holds hsplit (fun _ => rfl) hwf.sizes hwf.disjoint hholds, if_neg hkept] at hbyte
    rw [hload.read8 (by unfold UserPage; omega) hbyte, Phdr.byte, Nat.add_sub_cancel_left]
    congr 1
    exact if_congr (by omega) rfl rfl
  · intro v hlow hhigh
    obtain ⟨f, hf⟩ := Option.isSome_iff_exists.mp (hstack (0xDFFFF - v / 4096) (by omega))
    rw [show 0xDFFFF - (0xDFFFF - v / 4096) = v / 4096 by omega] at hf
    have hmap := hload.maps _ f hf (v % 4096) (Nat.mod_lt v (by decide))
    rw [show v / 4096 * 4096 + v % 4096 = v by omega] at hmap
    rw [hmap]
    rfl

/-- The byte of a segment is lost when a later segment takes its page. -/
theorem lost_byte (h : Laid own s) (hfs : DataInv fs) (hfound : lookupPath fs path = some ino)
    (hfile : IsFile (image fs.disk) ino) (hcontent : contentOf (image fs.disk) ino = file)
    (hwf : WellFormed file) (hrun : elfLoadAndExec fs path regs s = some (0, regs', s'))
    {before after : List Phdr} {ph qh : Phdr} (hsplit : loadable file = before ++ ph :: after)
    (hqh : qh ∈ after) {v w : Nat} (hv : ph.holds v) (hw : qh.inFile w) (hvw : v / 4096 = w / 4096) :
    ∃ f ∈ s.free, s'.read8 v = some (s.mem (f + v % 4096)) := by
  obtain ⟨img, fresh, own', hload, -, -, hpages, himage⟩ :=
    exec_image h hfs hfound hfile hcontent hwf hrun
  have hmem : ph ∈ loadable file := by simp [hsplit]
  have hmem' : qh ∈ loadable file := by simp [hsplit, hqh]
  have hbyte := himage v (hwf.user ph hmem v hv).2
  rw [imageOf_holds hsplit (fun _ => rfl) hwf.sizes hwf.disjoint hv,
    if_pos ⟨qh, hqh, hw.onPages hvw⟩] at hbyte
  exact hload.read8_stale (hpages qh hmem' v (hw.onPages hvw)) hbyte

/-- The memory of `s` with the byte `b` in all free frames. -/
def fillFree (s : Vm) (b : UInt8) : Nat → UInt8 :=
  fun a => if a / 4096 * 4096 ∈ s.free then b else s.mem a

theorem sameButFree_fillFree (s : Vm) (b : UInt8) : SameButFree s (fillFree s b) :=
  fun _ ha => if_neg ha

theorem fillFree_free (h : Laid own s) {f o : Nat} (hf : f ∈ s.free) (ho : o < 4096) (b : UInt8) :
    fillFree s b (f + o) = b := by
  have haligned := (h.isFrame (f := f) (by simp [h.free_of_mem hf])).1
  refine if_pos ?_
  rwa [show (f + o) / 4096 * 4096 = f by omega]

/-- A program some of whose segments take pages from earlier ones is not started as its file
says, for some contents of the free frames. -/
theorem not_started_of_sharesPage (h : Laid own s) (hfs : DataInv fs)
    (hfound : lookupPath fs path = some ino) (hfile : IsFile (image fs.disk) ino)
    (hcontent : contentOf (image fs.disk) ino = file) (hwf : WellFormed file)
    (hrun : elfLoadAndExec fs path regs s = some (0, regs', s'))
    {before after : List Phdr} {ph qh : Phdr} (hsplit : loadable file = before ++ ph :: after)
    (hqh : qh ∈ after) (hshares : ph.SharesPage qh) :
    ∃ m t, SameButFree s m ∧ elfLoadAndExec fs path regs { s with mem := m } = some (0, regs', t) ∧
      ¬ Started file regs' t := by
  obtain ⟨v, w, hv, hw, hvw⟩ := hshares
  -- a byte that is not the one of the segment
  generalize hb : (if v - ph.pVaddr < ph.pFilesz then file.getD (ph.pOffset + (v - ph.pVaddr)) 0
    else 0) = b
  have hsame := sameButFree_fillFree s (b + 1)
  have hlaid := hsame.laid h
  obtain ⟨hhas, hphdrs⟩ := hasPhdr_of_exec hfound hrun
  obtain ⟨t, ht⟩ := (hsame.alike h).exec (fun ino' hfound' _ => by
    rw [hfound] at hfound'
    obtain rfl := Option.some.inj hfound'
    subst hcontent
    exact hwf.segmentsInUser hfs hfile hhas hphdrs) hrun
  refine ⟨_, t, hsame, ht, fun hstarted => ?_⟩
  obtain ⟨f, hf, hread⟩ := lost_byte hlaid hfs hfound hfile hcontent hwf ht hsplit hqh hv hw hvw
  have hbyte := hstarted.bytes ph (by simp [hsplit]) (v - ph.pVaddr) (by
    unfold Phdr.holds at hv
    omega)
  have hv' : ph.pVaddr + (v - ph.pVaddr) = v := by
    unfold Phdr.holds at hv
    omega
  have hstale : fillFree s (b + 1) (f + v % 4096) = b + 1 :=
    fillFree_free h hf (Nat.mod_lt v (by decide)) (b + 1)
  rw [hv', hread, hb, Option.some_inj] at hbyte
  exact absurd (hstale.symm.trans hbyte) (by simp)

end Start

/-! ## A program with two segments -/

/-- The `k` bytes of a number, the lowest first. -/
def littleEndian (k n : Nat) : List UInt8 := (List.range k).map fun i => UInt8.ofNat (n / 256 ^ i)

def Phdr.encode (ph : Phdr) : List UInt8 :=
  littleEndian 4 ph.pType ++ littleEndian 4 ph.pOffset ++ littleEndian 4 ph.pVaddr ++
    littleEndian 4 ph.pVaddr ++ littleEndian 4 ph.pFilesz ++ littleEndian 4 ph.pMemsz ++
    littleEndian 4 7 ++ littleEndian 4 4096

def firstSegment : Phdr := ⟨1, 116, 0x400000, 4, 8⟩

def secondSegment (vaddr : Nat) : Phdr := ⟨1, 120, vaddr, 4, 4⟩

/-- An executable with a segment at 4 MB and one at `vaddr`. -/
def twoSegments (vaddr : Nat) : List UInt8 :=
  [0x7F, 0x45, 0x4C, 0x46, 1, 1, 1, 0, 0, 0, 0, 0, 0, 0, 0, 0] ++ littleEndian 2 2 ++
    littleEndian 2 3 ++ littleEndian 4 1 ++ littleEndian 4 0x400000 ++ littleEndian 4 52 ++
    littleEndian 8 0 ++ littleEndian 2 52 ++ littleEndian 2 32 ++ littleEndian 2 2 ++
    littleEndian 6 0 ++ firstSegment.encode ++ (secondSegment vaddr).encode ++
    [1, 2, 3, 4, 5, 6, 7, 8]

/-- The file `/a`. -/
def programPath : CStr := ⟨[0x2F, 0x61], by decide⟩

theorem programName_noNul : (0 : UInt8) ∉ [(0x61 : UInt8)] := by decide

/-- The program is written to `/a`. -/
def storeProgram (file : List UInt8) : Option FsState :=
  (some (fsBoot .blank)).bind (runList fsStep dataOkTest
    [.create ⟨[0x61], programName_noNul⟩, .open (some programPath),
      .write 0 (fun i => file.getD i 0) file.length])

/-- The file is there as `/a`, with its headers. -/
def storedTest (file : List UInt8) (fs : FsState) : Bool :=
  decide (lookupPath fs programPath = some 2) && decide (IsFile (image fs.disk) 2) &&
    decide (contentOf (image fs.disk) 2 = file) && elfCheckFile (ehdrAt fs 2) &&
    decide ((readFileAt fs 2 uninit sizeofEhdr 0).1 = 52) && decide ((ehdrAt fs 2).ePhnum = 2) &&
    (List.range 2).all fun i => decide ((readFileAt fs 2 uninit sizeofPhdr
      (u32 ((ehdrAt fs 2).ePhoff + i * sizeofPhdr))).1 = 32)

/-- A program that is stored can be started after boot. -/
theorem exec_stored {file : List UInt8} (hwf : WellFormed file)
    (hstored : (storeProgram file).any (storedTest file) = true)
    (hsmall : Room.memBytes (loadable file) ≤ 100) (regs : Registers) :
    ∃ fs s regs' s', Reach fsStep dataOk (fsBoot .blank) fs ∧ DataInv fs ∧
      lookupPath fs programPath = some 2 ∧ IsFile (image fs.disk) 2 ∧
      contentOf (image fs.disk) 2 = file ∧ boot (fun _ => 0) = some s ∧ Laid (bootOwn 0) s ∧
      elfLoadAndExec fs programPath regs s = some (0, regs', s') := by
  obtain ⟨fs₀, fs, hfs₀, hreach, hstored⟩ := Reach.exists_of_runList hstored
  obtain rfl := Option.some.inj hfs₀
  have hok := hreach.mono fun s a => dataOk_of_test
  have hfs := (DataInv.reach hok).1
  unfold storedTest at hstored
  simp only [Bool.and_eq_true, decide_eq_true_eq, List.all_eq_true, List.mem_range] at hstored
  obtain ⟨⟨⟨⟨⟨⟨hfound, hfile⟩, hcontent⟩, hcheck⟩, hheader⟩, hphnum⟩, hphdrs⟩ := hstored
  subst hcontent
  have hhas : hasEhdr fs 2 := by
    unfold hasEhdr
    rw [hheader]
    decide
  have hhas' : ∀ i < (ehdrAt fs 2).ePhnum, hasPhdr fs 2 (ehdrAt fs 2).ePhoff i := by
    intro i hi
    rw [hphnum] at hi
    unfold hasPhdr
    rw [hphdrs i hi]
    decide
  obtain ⟨s, hboot, -, hlaid, -, hfree⟩ := boot_laid (fun _ => 0) 0
  have hsegs := segments_eq hfs hfile hhas hhas' hwf.entsize
  have hroom : Room (2 * Room.memBytes (segments fs 2) + 8) s := by
    rw [hsegs]
    exact ⟨⟨_, hlaid⟩, by omega⟩
  obtain ⟨s', hrun⟩ := hroom.exec regs hfs hfound hfile hhas hcheck hhas'
    (hwf.segmentsInUser hfs hfile hhas hhas')
  exact ⟨fs, s, _, s', hok, hfs, hfound, hfile, rfl, hboot, hlaid, hrun⟩

section TwoSegments

variable {vaddr : Nat}

theorem wellFormed_twoSegments (hlow : 0x400008 ≤ vaddr) (hhigh : vaddr < 0x500000)
    (hent : (Ehdr.ofFile (twoSegments vaddr)).ePhentsize = 32)
    (hlen : (twoSegments vaddr).length = 124)
    (hload : loadable (twoSegments vaddr) = [firstSegment, secondSegment vaddr]) :
    WellFormed (twoSegments vaddr) := by
  refine ⟨hent, ?_, ?_, ?_, ?_⟩
  all_goals rw [hload]
  · simp [firstSegment, secondSegment]
  · simp [hlen, firstSegment, secondSegment]
  · simp only [List.mem_cons, List.not_mem_nil, or_false, forall_eq_or_imp, forall_eq, Phdr.holds,
      firstSegment, secondSegment]
    constructor <;> omega
  · simp only [List.pairwise_cons, List.mem_singleton, forall_eq, List.not_mem_nil, false_implies,
      implies_true, List.Pairwise.nil, and_true, Phdr.Disjoint, Phdr.holds, firstSegment, secondSegment]
    omega

end TwoSegments

theorem loadable_apart : loadable (twoSegments 0x401000) = [firstSegment, secondSegment 0x401000] := by
  decide +kernel

theorem loadable_shared : loadable (twoSegments 0x400800) = [firstSegment, secondSegment 0x400800] := by
  decide +kernel

end SRos.Elf
