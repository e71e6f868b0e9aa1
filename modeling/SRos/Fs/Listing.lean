import SRos.Fs.Entries

/-!
# The listing of the root directory

`SYS_FS_LS` writes the names of the root directory to a buffer of the user, with a line break
between two names, and drops what does not fit. The loops of the source write a byte only while
there is room for it and for the NUL. What they leave in the buffer is the front of the joined
names.
-/

namespace SRos.Fs

/-- The name ends within its 28 bytes. -/
def Dentry.Terminated (d : Dentry) : Prop := ∃ i < maxFilename, d.name i = 0

instance (d : Dentry) : Decidable d.Terminated :=
  inferInstanceAs (Decidable (∃ i < maxFilename, d.name i = 0))

/-- An entry that `SYS_FS_LS` shows. -/
def Dentry.listed (d : Dentry) : Bool :=
  d.ino != 0 && strcmp d.string [0x2E] != 0 && strcmp d.string [0x2E, 0x2E] != 0

/-- The entries of a directory in their order. -/
def dirEntries (s : FsState) (dir : Inode) : List Dentry :=
  (List.range dir.blockCount).flatMap fun bi => (List.range dentriesPerBlock).map fun di =>
    Dentry.decode (blockRead s.disk (dir.blocks bi) uninit) (di * dentryBytes)

/-- The text of a whole listing. -/
def listingText (ds : List Dentry) : List UInt8 :=
  List.intercalate [0x0A] ((ds.filter Dentry.listed).map Dentry.string)

/-! ## The loops of the source -/

/-- The loop over the characters of a name from index `i` on. It has no result when the name goes
on behind its array. -/
def copyName (name : Nat → UInt8) (bufSize : Nat) : Nat → Nat → Listing → Option Listing
  | 0, _, _ => none
  | fuel + 1, i, l =>
      if name i ≠ 0 ∧ u32 (l.written + 1) < bufSize then
        copyName name bufSize fuel (i + 1) { l with
          userBuf := Function.update l.userBuf l.written (name i)
          written := u32 (l.written + 1) }
      else some l

/-- The body of the loop over the entries. -/
def lsEntry (bufSize : Nat) (l : Listing) (d : Dentry) : Option Listing :=
  if d.ino ≠ 0 ∧ strcmp d.string [0x2E] ≠ 0 ∧ strcmp d.string [0x2E, 0x2E] ≠ 0 then
    let l := if l.first = false ∧ u32 (l.written + 1) < bufSize then
        { l with
          userBuf := Function.update l.userBuf l.written 0x0A
          written := u32 (l.written + 1) }
      else l
    copyName d.name bufSize maxFilename 0 { l with first := false }
  else some l

/-- `SYS_FS_LS` as the source runs it: the buffer of the user and the value of `eax`. -/
def fsLs (s : FsState) (userBuf : Option Buf) (bufSize : Nat) : Option (Option Buf × Int) :=
  match userBuf with
  | none => some (none, -1)
  | some buf =>
      if bufSize = 0 then some (some buf, -1)
      else do
        let rootInode := (sfsReadInode s rootIno).getD Inode.zero
        let l ← (List.range rootInode.blockCount).foldlM (fun l bi =>
          let tmpBlock := blockRead s.disk (rootInode.blocks bi) uninit
          (List.range dentriesPerBlock).foldlM (fun l di =>
            lsEntry bufSize l (Dentry.decode tmpBlock (di * dentryBytes))) l)
          (⟨buf, 0, true⟩ : Listing)
        let buf := if l.written < bufSize then Function.update l.userBuf l.written 0 else l.userBuf
        return (some buf, l.written)

namespace Listing

variable {bufSize : Nat} {l : Listing}

theorem put_room (c : UInt8) (h : l.written + 1 < bufSize) : l.put bufSize c =
    { l with userBuf := Function.update l.userBuf l.written c, written := l.written + 1 } :=
  if_pos h

theorem foldl_put_full (cs : List UInt8) (h : ¬ l.written + 1 < bufSize) :
    cs.foldl (fun l c => l.put bufSize c) l = l := by
  induction cs with
  | nil => rfl
  | cons c cs ih =>
      rw [List.foldl_cons, put, if_neg h]
      exact ih

theorem put_lt (c : UInt8) (h : l.written < bufSize) : (l.put bufSize c).written < bufSize := by
  unfold put
  split
  · assumption
  · exact h

theorem foldl_put_lt (cs : List UInt8) (h : l.written < bufSize) :
    (cs.foldl (fun l c => l.put bufSize c) l).written < bufSize := by
  induction cs generalizing l with
  | nil => exact h
  | cons c cs ih => exact ih (put_lt c h)

theorem entry_lt (d : Dentry) (h : l.written < bufSize) : (l.entry bufSize d).written < bufSize := by
  unfold entry
  split
  · apply foldl_put_lt
    dsimp only
    split
    · exact h
    · exact put_lt _ h
  · exact h

end Listing

section Loops

variable {bufSize : Nat} {l : Listing} {d : Dentry}

/-- The room that the source tests for is that of `put`: the sum does not wrap around. -/
theorem u32_written (hword : bufSize < 2 ^ 32) (h : l.written < bufSize) :
    u32 (l.written + 1) = l.written + 1 := Nat.mod_eq_of_lt (by omega)

theorem copyName_eq {name : Nat → UInt8} (hword : bufSize < 2 ^ 32) {n i : Nat}
    (h : l.written < bufSize) (hend : ∃ j, i ≤ j ∧ j < i + n ∧ name j = 0) :
    copyName name bufSize n i l = some ((((List.range' i n).map name).takeWhile (· ≠ 0)).foldl
      (fun l c => l.put bufSize c) l) := by
  induction n generalizing i l with
  | zero =>
      obtain ⟨j, hij, hji, -⟩ := hend
      omega
  | succ n ih =>
      rw [copyName, u32_written hword h, List.range'_succ, List.map_cons]
      by_cases hi : name i = 0
      · rw [if_neg (by simp [hi]), List.takeWhile_cons_of_neg (by simp [hi])]
        rfl
      · rw [List.takeWhile_cons_of_pos (by simpa using hi), List.foldl_cons]
        by_cases hroom : l.written + 1 < bufSize
        · rw [if_pos ⟨hi, hroom⟩, Listing.put_room _ hroom]
          apply ih hroom
          obtain ⟨j, hij, hji, hj⟩ := hend
          have hne : i ≠ j := by
            rintro rfl
            exact hi hj
          exact ⟨j, by omega, by omega, hj⟩
        · rw [if_neg (fun hand => hroom hand.2), ← List.foldl_cons,
            Listing.foldl_put_full _ hroom]

theorem lsEntry_eq (hword : bufSize < 2 ^ 32) (h : l.written < bufSize)
    (hd : d.ino ≠ 0 → d.Terminated) : lsEntry bufSize l d = some (l.entry bufSize d) := by
  unfold lsEntry Listing.entry
  split
  · next hlisted =>
      obtain ⟨j, hj, hz⟩ := hd hlisted.1
      have hsep : (if l.first = false ∧ u32 (l.written + 1) < bufSize then
          { l with userBuf := Function.update l.userBuf l.written 0x0A
                   written := u32 (l.written + 1) }
          else l) = if l.first then l else l.put bufSize 0x0A := by
        rw [u32_written hword h, Listing.put]
        cases l.first <;> simp
      have hlt : (if l.first then l else l.put bufSize 0x0A).written < bufSize := by
        split
        · exact h
        · exact Listing.put_lt _ h
      dsimp only
      rw [hsep, Dentry.string, List.range_eq_range']
      exact copyName_eq hword hlt ⟨j, by omega, by omega, hz⟩
  · rfl

/-- The loop over any number of entries. -/
theorem foldlM_lsEntry (hword : bufSize < 2 ^ 32) (ds : List Dentry) (h : l.written < bufSize)
    (hds : ∀ d ∈ ds, d.ino ≠ 0 → d.Terminated) :
    ds.foldlM (lsEntry bufSize) l = some (ds.foldl (fun l d => l.entry bufSize d) l) := by
  induction ds generalizing l with
  | nil => rfl
  | cons d ds ih =>
      rw [List.foldlM_cons, lsEntry_eq hword h (hds d (by simp))]
      exact ih (l.entry_lt d h) fun e he => hds e (by simp [he])

end Loops

theorem foldlM_flatMap {α β σ : Type} (f : σ → β → Option σ) (g : α → List β) (as : List α) (x : σ) :
    (as.flatMap g).foldlM f x = as.foldlM (fun x a => (g a).foldlM f x) x := by
  induction as generalizing x with
  | nil => rfl
  | cons a as ih =>
      rw [List.flatMap_cons, List.foldlM_append, List.foldlM_cons]
      congr 1
      funext y
      exact ih y

/-- With names that end, the loops of the source make the listing of `sysFsLs`. -/
theorem fsLs_eq {s : FsState} {root : Inode} {bufSize : Nat} (hroot : sfsReadInode s rootIno = some root)
    (hnames : ∀ d ∈ dirEntries s root, d.ino ≠ 0 → d.Terminated) (hword : bufSize < 2 ^ 32)
    (userBuf : Option Buf) : fsLs s userBuf bufSize = some (sysFsLs s userBuf bufSize) := by
  unfold fsLs sysFsLs
  cases userBuf with
  | none => rfl
  | some buf =>
      dsimp only
      split
      · rfl
      · next hsize =>
          have hloops := @foldlM_lsEntry bufSize ⟨buf, 0, true⟩ hword (dirEntries s root)
            (Nat.pos_of_ne_zero hsize) hnames
          rw [dirEntries, foldlM_flatMap, List.foldl_flatMap] at hloops
          simp only [List.foldlM_map, List.foldl_map] at hloops
          rw [hroot, Option.getD_some, hloops]
          rfl

/-- The listing is made entry by entry. -/
theorem sysFsLs_entries {s : FsState} {root : Inode} {bufSize : Nat} {buf : Buf}
    (hroot : sfsReadInode s rootIno = some root) (hsize : bufSize ≠ 0) :
    sysFsLs s (some buf) bufSize =
      let l := (dirEntries s root).foldl (fun l d => l.entry bufSize d) (⟨buf, 0, true⟩ : Listing)
      (some (if l.written < bufSize then Function.update l.userBuf l.written 0 else l.userBuf),
        (l.written : Int)) := by
  unfold sysFsLs
  dsimp only
  rw [if_neg hsize, hroot, Option.getD_some, dirEntries, List.foldl_flatMap]
  simp only [List.foldl_map]
  rfl

/-! ## What is left in the buffer -/

/-- The buffer of the user starts with the front of `text`, as far as there is room. -/
structure Shows (buf : Buf) (bufSize : Nat) (text : List UInt8) (l : Listing) : Prop where
  written : l.written = min text.length (bufSize - 1)
  front : ∀ i < l.written, text[i]? = some (l.userBuf i)
  rest : ∀ i, l.written ≤ i → l.userBuf i = buf i

namespace Shows

variable {buf : Buf} {bufSize : Nat} {text : List UInt8} {l : Listing}

theorem put (h : Shows buf bufSize text l) (c : UInt8) :
    Shows buf bufSize (text ++ [c]) (l.put bufSize c) := by
  have hwritten := h.written
  by_cases hroom : l.written + 1 < bufSize
  · have hlen : text.length = l.written := by omega
    rw [Listing.put_room c hroom]
    refine ⟨by simp; omega, ?_, ?_⟩
    · intro i hi
      change i < l.written + 1 at hi
      by_cases hlast : i = l.written
      · subst hlast
        simp [← hlen]
      · rw [List.getElem?_append_left (by omega), h.front i (by omega)]
        simp [hlast]
    · intro i hi
      change l.written + 1 ≤ i at hi
      have hne : i ≠ l.written := by omega
      simpa [hne] using h.rest i (by omega)
  · rw [Listing.put, if_neg hroom]
    refine ⟨by simp; omega, ?_, h.rest⟩
    intro i hi
    rw [List.getElem?_append_left (by omega)]
    exact h.front i hi

theorem puts (h : Shows buf bufSize text l) (cs : List UInt8) :
    Shows buf bufSize (text ++ cs) (cs.foldl (fun l c => l.put bufSize c) l) := by
  induction cs generalizing text l with
  | nil => simpa using h
  | cons c cs ih => simpa using ih (h.put c)

theorem setFirst (h : Shows buf bufSize text l) (b : Bool) :
    Shows buf bufSize text { l with first := b } := ⟨h.written, h.front, h.rest⟩

end Shows

theorem intercalate_snoc {α : Type} (sep y : List α) {xs : List (List α)} (h : xs ≠ []) :
    sep.intercalate (xs ++ [y]) = sep.intercalate xs ++ sep ++ y := by
  induction xs with
  | nil => exact absurd rfl h
  | cons x xs ih =>
      by_cases hxs : xs = []
      · subst hxs
        simp
      · rw [List.cons_append, List.intercalate_cons_of_ne_nil (by simp), ih hxs,
          List.intercalate_cons_of_ne_nil hxs]
        simp only [List.append_assoc]

/-- The names `xs` have been listed, and the flag tells whether there were any. -/
structure Lists (buf : Buf) (bufSize : Nat) (xs : List (List UInt8)) (l : Listing) : Prop where
  shows : Shows buf bufSize (List.intercalate [0x0A] xs) l
  first : l.first = true ↔ xs = []

theorem Dentry.listed_iff (d : Dentry) : d.listed = true ↔
    d.ino ≠ 0 ∧ strcmp d.string [0x2E] ≠ 0 ∧ strcmp d.string [0x2E, 0x2E] ≠ 0 := by
  unfold listed
  simp [and_assoc]

namespace Lists

variable {buf : Buf} {bufSize : Nat} {xs : List (List UInt8)} {l : Listing}

theorem foldl_first (cs : List UInt8) (l : Listing) :
    (cs.foldl (fun l c => l.put bufSize c) l).first = l.first := by
  induction cs generalizing l with
  | nil => rfl
  | cons c cs ih =>
      rw [List.foldl_cons, ih]
      unfold Listing.put
      split <;> rfl

/-- A listed entry comes behind a line break, except for the first one. -/
theorem entry (h : Lists buf bufSize xs l) {d : Dentry} (hd : d.listed = true) :
    Lists buf bufSize (xs ++ [d.string]) (l.entry bufSize d) := by
  have hlisted := d.listed_iff.mp hd
  unfold Listing.entry
  rw [if_pos hlisted]
  refine ⟨?_, by simp [foldl_first]⟩
  cases hfirst : l.first with
  | true =>
      obtain rfl := h.first.mp hfirst
      simpa using (h.shows.setFirst false).puts d.string
  | false =>
      have hne : xs ≠ [] := by
        intro hnil
        rw [h.first.mpr hnil] at hfirst
        cases hfirst
      rw [intercalate_snoc _ _ hne]
      exact ((h.shows.put 0x0A).setFirst false).puts d.string

theorem entries (h : Lists buf bufSize xs l) (ds : List Dentry) :
    Lists buf bufSize (xs ++ (ds.filter Dentry.listed).map Dentry.string)
      (ds.foldl (fun l d => l.entry bufSize d) l) := by
  induction ds generalizing xs l with
  | nil => simpa using h
  | cons d ds ih =>
      rw [List.foldl_cons]
      by_cases hd : d.listed = true
      · rw [List.filter_cons_of_pos hd, List.map_cons, ← List.singleton_append,
          ← List.append_assoc]
        exact ih (h.entry hd)
      · rw [List.filter_cons_of_neg hd]
        have hskip : l.entry bufSize d = l := if_neg (mt d.listed_iff.mpr hd)
        rw [hskip]
        exact ih h

end Lists

/-- `SYS_FS_LS` leaves the front of the joined names in the buffer, as many bytes as fit in front
of the NUL, and then the NUL. Every other byte of memory, those at and behind `buf_size` among
them, is as before. -/
theorem fs_ls_exact {s : FsState} {root : Inode} (hroot : sfsReadInode s rootIno = some root)
    (hnames : ∀ d ∈ dirEntries s root, d.ino ≠ 0 → d.Terminated) (buf : Buf) {bufSize : Nat}
    (hsize : 0 < bufSize) (hword : bufSize < 2 ^ 32) :
    let text := listingText (dirEntries s root)
    let n := min text.length (bufSize - 1)
    ∃ out : Buf, fsLs s (some buf) bufSize = some (some out, (n : Int)) ∧
      (∀ i < n, text[i]? = some (out i)) ∧ out n = 0 ∧ ∀ i, n < i → out i = buf i := by
  intro text n
  have hempty : Lists buf bufSize [] ⟨buf, 0, true⟩ :=
    ⟨⟨by simp, by simp, fun _ _ => rfl⟩, by simp⟩
  have hshows : Shows buf bufSize text _ := (hempty.entries (dirEntries s root)).shows
  generalize hl : (dirEntries s root).foldl _ _ = l at hshows
  have hwritten : l.written = n := hshows.written
  have hlt : l.written < bufSize := by omega
  refine ⟨Function.update l.userBuf l.written 0, ?_, ?_, ?_, ?_⟩
  · rw [fsLs_eq hroot hnames hword, sysFsLs_entries hroot (by omega), hl]
    dsimp only
    rw [if_pos hlt, hwritten]
  · intro i hi
    rw [← hwritten] at hi
    have hne : i ≠ l.written := Nat.ne_of_lt hi
    rw [hshows.front i hi, Function.update_of_ne hne]
  · rw [← hwritten, Function.update_self]
  · intro i hi
    rw [Function.update_of_ne (by omega)]
    exact hshows.rest i (by omega)

/-- A directory with the two files `ab` and `c`. -/
def twoFiles : FsState where
  disk := fun b =>
    if b = inodeTableStart then
      { Inode.zero with ino := rootIno, type := sfsDir, blockCount := 1,
                        blocks := fun _ => dataBlockStart }.encode
    else if b = dataBlockStart then
      Bytes.splice (Bytes.splice (dotDentries rootIno rootIno) 64 dentryBytes
        (Dentry.zero.assign 2 ⟨[0x61, 0x62], by decide⟩).encode) 96 dentryBytes
        (Dentry.zero.assign 3 ⟨[0x63], by decide⟩).encode
    else zeros
  sb := SuperBlock.new
  mounted := true
  files := fun _ => ⟨0, 0, 0, false⟩

/-- Of `ab`, a line break and `c`, three bytes fit into a buffer of four. -/
theorem fs_ls_exact_two : ∃ out : Buf, fsLs twoFiles (some zeros) 4 = some (some out, 3) ∧
    (List.range 4).map out = [0x61, 0x62, 0x0A, 0] := by
  have hroot : sfsReadInode twoFiles rootIno =
      some (Inode.decode (blockRead twoFiles.disk inodeTableStart uninit) 0) := rfl
  have hnames : ∀ d ∈ dirEntries twoFiles
      (Inode.decode (blockRead twoFiles.disk inodeTableStart uninit) 0), d.ino ≠ 0 →
      d.Terminated := by decide +kernel
  have htext : listingText (dirEntries twoFiles
      (Inode.decode (blockRead twoFiles.disk inodeTableStart uninit) 0)) =
      [0x61, 0x62, 0x0A, 0x63] := by decide +kernel
  obtain ⟨out, hls, hfront, hnul, -⟩ := @fs_ls_exact _ _ hroot hnames zeros 4 (by decide)
    (by decide)
  rw [htext] at hls hfront hnul
  refine ⟨out, hls, ?_⟩
  have h₀ : out 0 = 0x61 := by simpa using (hfront 0 (by decide)).symm
  have h₁ : out 1 = 0x62 := by simpa using (hfront 1 (by decide)).symm
  have h₂ : out 2 = 0x0A := by simpa using (hfront 2 (by decide)).symm
  have h₃ : out 3 = 0 := hnul
  simp [List.range_succ, h₀, h₁, h₂, h₃]

end SRos.Fs
