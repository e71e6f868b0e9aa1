import SRos.Elf.Exec
import SRos.Fs.Content

/-!
# The image of an ELF file

What a file says is to be in memory, and what the loader makes of it. The loader allocates the
pages of a file part without looking at what is there, so that the bytes which an earlier segment
has put on such a page are lost.
-/

namespace SRos.Elf

open Bytes Fs Paging

namespace Phdr

/-- The segment has the byte at `v`. -/
def holds (ph : Phdr) (v : Nat) : Prop := ph.pVaddr ≤ v ∧ v < ph.pVaddr + ph.pMemsz

/-- The segment takes the byte at `v` from the file. -/
def inFile (ph : Phdr) (v : Nat) : Prop := ph.pVaddr ≤ v ∧ v < ph.pVaddr + ph.pFilesz

/-- There is a page with a byte of `ph` and a byte that `qh` takes from the file. -/
def SharesPage (ph qh : Phdr) : Prop := ∃ v w, ph.holds v ∧ qh.inFile w ∧ v / 4096 = w / 4096

/-- No address is in both segments. -/
def Disjoint (ph qh : Phdr) : Prop := ∀ v, ¬ (ph.holds v ∧ qh.holds v)

/-- The byte of the segment at `v`. -/
def byte (file : List UInt8) (ph : Phdr) (v : Nat) : UInt8 :=
  if v < ph.pVaddr + ph.pFilesz then file.getD (ph.pOffset + (v - ph.pVaddr)) 0 else 0

instance (ph : Phdr) (v : Nat) : Decidable (ph.holds v) := inferInstanceAs (Decidable (_ ∧ _))

theorem inFile.onPages {ph : Phdr} {v w : Nat} (h : ph.inFile w) (hvw : v / 4096 = w / 4096) :
    onPages ph.pVaddr ph.pFilesz v := by
  unfold inFile at h
  unfold Elf.onPages
  omega

theorem exists_inFile {ph : Phdr} {v : Nat} (h : onPages ph.pVaddr ph.pFilesz v) :
    ∃ w, ph.inFile w ∧ v / 4096 = w / 4096 := by
  unfold Elf.onPages at h
  unfold inFile
  by_cases hfirst : v / 4096 = ph.pVaddr / 4096
  · exact ⟨ph.pVaddr, by omega, hfirst⟩
  · exact ⟨v / 4096 * 4096, by omega, by omega⟩

end Phdr

section Image

variable {file : List UInt8} {ph : Phdr} {segs : List Phdr} {img : Nat → Option UInt8}
  {src : Phdr → Nat → UInt8} {v : Nat}

theorem segImg_holds (hsrc : ph.inFile v → src ph v = ph.byte file v)
    (hsizes : ph.pFilesz ≤ ph.pMemsz) (hv : ph.holds v) :
    segImg ph (src ph) img v = some (ph.byte file v) := by
  obtain ⟨hlow, hhigh⟩ := hv
  unfold segImg putBytes
  by_cases hfile : v < ph.pVaddr + ph.pFilesz
  · rw [if_neg (by omega), fileImg, if_pos ⟨hlow, hfile⟩, hsrc ⟨hlow, hfile⟩]
  · rw [if_pos (by omega), Phdr.byte, if_neg hfile]

theorem segImg_not_holds (hsizes : ph.pFilesz ≤ ph.pMemsz) (hv : ¬ ph.holds v) :
    segImg ph (src ph) img v = if onPages ph.pVaddr ph.pFilesz v then none else img v := by
  unfold Phdr.holds at hv
  unfold segImg putBytes fileImg
  rw [if_neg (by omega), if_neg (by omega)]

/-- What segments that do not have the byte do to it. -/
theorem imageOf_not_holds (hsizes : ∀ ph ∈ segs, ph.pFilesz ≤ ph.pMemsz)
    (hv : ∀ ph ∈ segs, ¬ ph.holds v) :
    imageOf src segs img v =
      if ∃ ph ∈ segs, onPages ph.pVaddr ph.pFilesz v then none else img v := by
  induction segs generalizing img with
  | nil => simp [imageOf]
  | cons ph segs ih =>
      have hcons : imageOf src (ph :: segs) img = imageOf src segs (segImg ph (src ph) img) := rfl
      rw [hcons, ih (fun qh hqh => hsizes qh (List.mem_cons_of_mem _ hqh))
        (fun qh hqh => hv qh (List.mem_cons_of_mem _ hqh)),
        segImg_not_holds (hsizes ph List.mem_cons_self) (hv ph List.mem_cons_self)]
      by_cases hlater : ∃ qh ∈ segs, onPages qh.pVaddr qh.pFilesz v
      · simp [hlater]
      · simp [hlater]

/-- The byte of a segment is there at the end, unless a later segment takes its page. -/
theorem imageOf_holds {before after : List Phdr} (hsplit : segs = before ++ ph :: after)
    (hsrc : ph.inFile v → src ph v = ph.byte file v)
    (hsizes : ∀ ph ∈ segs, ph.pFilesz ≤ ph.pMemsz) (hdisj : segs.Pairwise Phdr.Disjoint)
    (hv : ph.holds v) :
    imageOf src segs img v =
      if ∃ qh ∈ after, onPages qh.pVaddr qh.pFilesz v then none else some (ph.byte file v) := by
  subst hsplit
  have hafter : ∀ qh ∈ after, ¬ qh.holds v := by
    intro qh hqh hq
    have hcons := List.pairwise_append.mp hdisj
    exact (List.pairwise_cons.mp hcons.2.1).1 qh hqh v ⟨hv, hq⟩
  have hfold : imageOf src (before ++ ph :: after) img =
      imageOf src after (segImg ph (src ph) (imageOf src before img)) := by
    unfold imageOf
    rw [List.foldl_append, List.foldl_cons]
  rw [hfold, imageOf_not_holds (fun qh hqh => hsizes qh (by simp [hqh])) hafter,
    segImg_holds hsrc (hsizes ph (by simp)) hv]

end Image

/-- The header of a file. -/
def Ehdr.ofFile (file : List UInt8) : Ehdr := .decode fun i => file.getD i 0

/-- The program headers of a file, which are `e_phentsize` bytes apart. -/
def programHeaders (file : List UInt8) : List Phdr :=
  (List.range (Ehdr.ofFile file).ePhnum).map fun i =>
    .decode fun j => file.getD ((Ehdr.ofFile file).ePhoff + i * (Ehdr.ofFile file).ePhentsize + j) 0

/-- The segments of a file that are to be loaded. -/
def loadable (file : List UInt8) : List Phdr :=
  (programHeaders file).filter fun ph => ph.pType == ptLoad

theorem load16_lt (m : Nat → UInt8) (a : Nat) : load16 m a < 2 ^ 16 := by
  have h₀ := (m a).toNat_lt
  have h₁ := (m (a + 1)).toNat_lt
  unfold load16
  omega

section File

variable {fs : FsState} {ino : Nat} {buf : Buf} {size offset : Nat}

theorem getD_contentOf {g : Image} {i p : Nat} (hp : p < (g.inode i).size) :
    (contentOf g i).getD p 0 = fileByte g (g.inode i) p := by
  rw [List.getD_eq_getElem _ _ (by simpa using hp)]
  simp [contentOf]

theorem length_le_of_isFile (h : DataInv fs) (hfile : IsFile (image fs.disk) ino) :
    (contentOf (image fs.disk) ino).length ≤ 49152 := by
  rw [length_contentOf]
  exact (h.size_le ino hfile).trans (h.inv.owned.blocks.held ino ⟨hfile.1, hfile.2.1⟩).room_le

/-- Reading a file gives its bytes, and leaves the rest of the buffer as it is. -/
theorem readFileAt_spec (h : DataInv fs) (hfile : IsFile (image fs.disk) ino) (hsize : size < 2 ^ 31) :
    (readFileAt fs ino buf size offset).1 =
        (min size ((contentOf (image fs.disk) ino).length - offset) : Nat) ∧
      ∀ j, (readFileAt fs ino buf size offset).2 j =
        if j < min size ((contentOf (image fs.disk) ino).length - offset) then
          (contentOf (image fs.disk) ino).getD (offset + j) 0 else buf j := by
  have halloc : Allocated (image fs.disk) ino := ⟨hfile.1, hfile.2.1⟩
  have hheld := h.inv.owned.blocks.held _ halloc
  have hroom := hheld.room_le
  have hle := h.size_le ino hfile
  unfold readFileAt
  simp only [sfsReadInode_eq h.inv.sb, if_pos halloc.isIno, length_contentOf]
  generalize hinode : (image fs.disk).inode ino = inode at hheld hroom hle ⊢
  by_cases hend : inode.size ≤ offset
  · have hnone : sfsReadFile fs.disk inode buf size offset = (0, buf) := by
      unfold sfsReadFile
      rw [if_pos hend]
    rw [hnone, Nat.sub_eq_zero_of_le hend, Nat.min_zero]
    exact ⟨rfl, fun j => by simp⟩
  · obtain ⟨n, hn, -, hbuf, hexact⟩ := @sfsReadFile_spec fs inode hheld.onData hroom size offset buf
      (by omega)
    have hcount := hexact hle (by omega) hsize
    rw [hn, ← hcount]
    refine ⟨int32_of_lt (by omega), fun j => ?_⟩
    rw [hbuf j]
    by_cases hj : j < n
    · rw [if_pos hj, if_pos hj, getD_contentOf (by rw [hinode]; omega), hinode]
    · rw [if_neg hj, if_neg hj]

/-- The file has the bytes that the loader takes for a segment inside the file. -/
theorem reads_segment (h : DataInv fs) (hfile : IsFile (image fs.disk) ino) {ph : Phdr}
    (hend : ph.pOffset + ph.pFilesz ≤ (contentOf (image fs.disk) ino).length) :
    Reads fs ino ph.pOffset ph.pVaddr ph.pFilesz (ph.byte (contentOf (image fs.disk) ino)) := by
  have hlen := length_le_of_isFile h hfile
  intro k m hkm j hj
  obtain ⟨-, hbuf⟩ := @readFileAt_spec fs ino zeros m (ph.pOffset + k) h hfile (by omega)
  rw [u32_of_lt (by omega), hbuf j, if_pos (by omega), Phdr.byte, if_pos (by omega)]
  congr 1
  omega

theorem load16_congr {m m' : Nat → UInt8} {a : Nat} (h : ∀ k < 2, m (a + k) = m' (a + k)) :
    load16 m a = load16 m' a := by
  have h₀ := h 0 (by decide)
  rw [Nat.add_zero] at h₀
  rw [load16, load16, h₀, h 1 (by decide)]

theorem Ehdr.decode_congr {m m' : Buf} (h : ∀ k < sizeofEhdr, m k = m' k) :
    (Ehdr.decode m).eEntry = (Ehdr.decode m').eEntry ∧
      (Ehdr.decode m).ePhoff = (Ehdr.decode m').ePhoff ∧
      (Ehdr.decode m).ePhnum = (Ehdr.decode m').ePhnum := by
  have hsize : sizeofEhdr = 52 := rfl
  refine ⟨?_, ?_, ?_⟩
  · exact @load32_congr m' m 24 fun k _ hk => h _ (by omega)
  · exact @load32_congr m' m 28 fun k _ hk => h _ (by omega)
  · exact @load16_congr m m' 44 fun k hk => h _ (by omega)

/-- The header that the loader reads is the one of the file, in all that the loader uses. -/
theorem ehdrAt_eq (h : DataInv fs) (hfile : IsFile (image fs.disk) ino) (hhas : hasEhdr fs ino) :
    (ehdrAt fs ino).eEntry = (Ehdr.ofFile (contentOf (image fs.disk) ino)).eEntry ∧
      (ehdrAt fs ino).ePhoff = (Ehdr.ofFile (contentOf (image fs.disk) ino)).ePhoff ∧
      (ehdrAt fs ino).ePhnum = (Ehdr.ofFile (contentOf (image fs.disk) ino)).ePhnum := by
  obtain ⟨hn, hbuf⟩ := @readFileAt_spec fs ino uninit sizeofEhdr 0 h hfile (by decide)
  unfold hasEhdr at hhas
  rw [hn] at hhas
  apply Ehdr.decode_congr
  intro j hj
  rw [hbuf j, if_pos (by omega), Nat.zero_add]

theorem Phdr.decode_congr {m m' : Buf} (h : ∀ k < sizeofPhdr, m k = m' k) :
    Phdr.decode m = Phdr.decode m' := by
  have hsize : sizeofPhdr = 32 := rfl
  have hword : ∀ a ≤ 28, load32 m a = load32 m' a := fun a ha =>
    load32_congr fun k _ hk => h _ (by omega)
  unfold Phdr.decode
  rw [hword 0 (by omega), hword 4 (by omega), hword 8 (by omega), hword 16 (by omega),
    hword 20 (by omega)]

theorem phdrAt_eq (h : DataInv fs) (hfile : IsFile (image fs.disk) ino) {phoff i : Nat}
    (hhas : hasPhdr fs ino phoff i) (hlt : phoff + i * sizeofPhdr < 2 ^ 32) :
    phdrAt fs ino phoff i =
      .decode fun j => (contentOf (image fs.disk) ino).getD (phoff + i * sizeofPhdr + j) 0 := by
  obtain ⟨hn, hbuf⟩ := @readFileAt_spec fs ino uninit sizeofPhdr (u32 (phoff + i * sizeofPhdr)) h hfile
    (by decide)
  unfold hasPhdr at hhas
  rw [hn] at hhas
  apply Phdr.decode_congr
  intro j hj
  rw [hbuf j, if_pos (by omega), u32_of_lt hlt]

/-- The segments that the loader finds are the ones of the file, in the same order. -/
theorem segments_eq (h : DataInv fs) (hfile : IsFile (image fs.disk) ino) (hhas : hasEhdr fs ino)
    (hphdrs : ∀ i < (ehdrAt fs ino).ePhnum, hasPhdr fs ino (ehdrAt fs ino).ePhoff i)
    (hentry : (Ehdr.ofFile (contentOf (image fs.disk) ino)).ePhentsize = sizeofPhdr) :
    segments fs ino = loadable (contentOf (image fs.disk) ino) := by
  obtain ⟨-, hphoff, hphnum⟩ := ehdrAt_eq h hfile hhas
  have hlen := length_le_of_isFile h hfile
  have hsize : sizeofPhdr = 32 := rfl
  unfold segments segmentsAt loadable programHeaders
  rw [hentry, ← hphoff, ← hphnum]
  congr 1
  apply List.map_congr_left
  intro i hi
  have hi' := List.mem_range.mp hi
  -- the first header is inside the file, so that no offset wraps around
  have hfirst := hphdrs 0 (by omega)
  obtain ⟨hn, -⟩ := @readFileAt_spec fs ino uninit sizeofPhdr
    (u32 ((ehdrAt fs ino).ePhoff + 0 * sizeofPhdr)) h hfile (by decide)
  unfold hasPhdr at hfirst
  have hlt : (ehdrAt fs ino).ePhoff < 2 ^ 32 := load32_lt _ _
  rw [hn, Nat.zero_mul, Nat.add_zero, u32_of_lt hlt] at hfirst
  have hcount : (ehdrAt fs ino).ePhnum < 2 ^ 16 := load16_lt _ _
  exact phdrAt_eq h hfile (hphdrs i hi') (by rw [hsize] at hfirst ⊢; omega)

end File

end SRos.Elf
