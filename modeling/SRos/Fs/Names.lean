import Mathlib.Data.List.TakeWhile
import SRos.Fs.Invariant

/-!
# Stored names

`sfs_create` copies a name over the name field of the entry it reuses. The field of a free entry
is empty, and the copy is the name. When the directory is full the entry that is written to the
new block is made from the last entry of the directory, and the bytes of its name behind a
shorter new name stay: the file is stored under a longer name, and `sfs_lookup` does not find it.
-/

namespace SRos.Fs

open Bytes

variable {s s' : FsState} {name : CStr}

/-- The name field is a string padded with NUL. -/
structure Dentry.Clean (d : Dentry) : Prop where
  length_lt : d.string.length < maxFilename
  pad : ∀ i, d.string.length ≤ i → d.name i = 0

theorem Dentry.string_eq {d : Dentry} {n : Nat} (hn : n < maxFilename)
    (hlive : ∀ i < n, d.name i ≠ 0) (hend : d.name n = 0) :
    d.string = (List.range n).map d.name := by
  have hsplit : List.range maxFilename =
      List.range n ++ (List.range (maxFilename - n)).map (n + ·) := by
    rw [← List.range_add, Nat.add_sub_cancel' hn.le]
  obtain ⟨m, hm⟩ := Nat.exists_eq_add_of_lt hn
  have htail : List.range (maxFilename - n) = 0 :: (List.range m).map Nat.succ := by
    rw [← List.range_succ_eq_map]
    congr 1
    omega
  unfold string
  rw [hsplit, List.map_append, List.takeWhile_append_of_pos]
  · rw [htail]
    simp [hend]
  · intro x hx
    obtain ⟨i, hi, rfl⟩ := List.mem_map.mp hx
    simpa using hlive i (List.mem_range.mp hi)

theorem Dentry.name_ne_zero {d : Dentry} {i : Nat} (hi : i < d.string.length) :
    d.name i ≠ 0 ∧ d.string[i]? = some (d.name i) := by
  have hhead : d.string <+: (List.range maxFilename).map d.name := List.takeWhile_prefix _
  have hget : d.string[i] = d.name i := by
    rw [hhead.getElem hi]
    simp
  refine ⟨?_, by rw [List.getElem?_eq_getElem hi, hget]⟩
  have hmem := List.mem_takeWhile_imp (List.getElem_mem hi)
  rw [hget] at hmem
  simpa using hmem

theorem CStr.getD_ne_zero (name : CStr) {i : Nat} (hi : i < name.bytes.length) :
    name.bytes.getD i 0 ≠ 0 := by
  rw [List.getD_eq_getElem _ _ hi]
  intro hzero
  exact name.noNul (hzero ▸ List.getElem_mem hi)

/-- The copy is cut to 27 characters, and it keeps what the old name has behind the length of the
new one. -/
theorem Dentry.string_assign_cut {d : Dentry} (h : d.Clean) (ino : Nat) (name : CStr) :
    (d.assign ino name).string =
        name.bytes.take (maxFilename - 1) ++ d.string.drop name.bytes.length ∧
      (d.assign ino name).Clean := by
  have hmax : maxFilename = 28 := rfl
  have hdlen := h.length_lt
  have hnew : ∀ i, i < name.bytes.length → i < maxFilename - 1 →
      (d.assign ino name).name i = name.bytes.getD i 0 := by
    intro i hi hi'
    simp only [assign]
    rw [if_pos ⟨hi, hi'⟩]
  have hold : ∀ i, name.bytes.length ≤ i → i < d.string.length →
      (d.assign ino name).name i = d.name i := by
    intro i hi hi'
    simp only [assign]
    rw [if_neg (by omega)]
    split
    · next hlast =>
        have hzero : i < d.string.length := hi'
        omega
    · rfl
  have hpad : ∀ i, name.bytes.length ≤ i ∨ maxFilename - 1 ≤ i → d.string.length ≤ i →
      (d.assign ino name).name i = 0 := by
    intro i hi hi'
    simp only [assign]
    rw [if_neg (by omega)]
    split
    · rfl
    · exact h.pad i hi'
  have hlength : (name.bytes.take (maxFilename - 1)).length =
      min (maxFilename - 1) name.bytes.length := List.length_take
  have hstring : (d.assign ino name).string =
      (List.range (max (min (maxFilename - 1) name.bytes.length) d.string.length)).map
        (d.assign ino name).name := by
    apply string_eq
    · omega
    · intro i hi
      by_cases hi' : i < name.bytes.length
      · rw [hnew i hi' (by omega)]
        exact CStr.getD_ne_zero name hi'
      · rw [hold i (by omega) (by omega)]
        exact (name_ne_zero (by omega)).1
    · exact hpad _ (by omega) (le_max_right _ _)
  constructor
  · rw [hstring]
    apply List.ext_getElem?
    intro i
    by_cases hi : i < min (maxFilename - 1) name.bytes.length
    · rw [List.getElem?_append_left (by omega), List.getElem?_map, List.getElem?_range (by omega),
        List.getElem?_take_of_lt (by omega)]
      simp only [Option.map_some, hnew i (by omega) (by omega)]
      rw [List.getD_eq_getElem _ _ (by omega), List.getElem?_eq_getElem (by omega)]
    · rw [List.getElem?_append_right (by omega), List.getElem?_drop, hlength]
      by_cases hi' : i < d.string.length
      · have hshort : name.bytes.length ≤ i := by omega
        have hsum : name.bytes.length + (i - min (maxFilename - 1) name.bytes.length) = i := by
          omega
        rw [hsum, List.getElem?_map, List.getElem?_range (by omega), (name_ne_zero hi').2]
        simp only [Option.map_some, hold i hshort hi']
      · rw [List.getElem?_eq_none (by simp; omega), List.getElem?_eq_none (by omega)]
  · have hlen : (d.assign ino name).string.length =
        max (min (maxFilename - 1) name.bytes.length) d.string.length := by
      rw [hstring]
      simp
    refine ⟨by omega, ?_⟩
    intro i hi
    exact hpad i (by omega) (by omega)

/-- A name that fits is not cut. -/
theorem Dentry.string_assign {d : Dentry} (h : d.Clean) (ino : Nat)
    (hlen : name.bytes.length < maxFilename) :
    (d.assign ino name).string = name.bytes ++ d.string.drop name.bytes.length ∧
      (d.assign ino name).Clean := by
  have hcut : name.bytes.take (maxFilename - 1) = name.bytes := List.take_of_length_le (by omega)
  obtain ⟨hstring, hclean⟩ := string_assign_cut h ino name
  rw [hcut] at hstring
  exact ⟨hstring, hclean⟩

theorem Dentry.string_zero : Dentry.zero.string = [] := by
  decide

theorem Dentry.clean_zero : Dentry.zero.Clean := by
  refine ⟨by decide, ?_⟩
  intro i _
  rfl

theorem Dentry.matches_iff {d : Dentry} :
    d.matches name = true ↔ d.ino ≠ 0 ∧ d.string = name.bytes := by
  unfold Dentry.matches
  simp [strcmp_eq_zero_iff]

/-- A file system on which `n - 2` files have been created and nothing else has been done. The
inodes are taken in turn and entered in turn. -/
structure Dense (s : FsState) (n : Nat) : Prop where
  sb : s.sb = SuperBlock.new
  owned : Owned (image s.disk)
  two_le : 2 ≤ n
  le : n ≤ maxInodes
  inodeUsed : ∀ i < maxInodes, (image s.disk).inodeUsed i = decide (i < n)
  blockUsed : ∀ b < diskBlocks, (image s.disk).blockUsed b =
    decide (b < dataBlockStart + (image s.disk).root.blockCount)
  count_eq : (image s.disk).root.blockCount = if n ≤ dentriesPerBlock then 1 else 2
  live : ∀ k < n, (slot (image s.disk) (image s.disk).root k).ino ≠ 0
  free : ∀ k, n ≤ k → k < slotCount (image s.disk).root →
    slot (image s.disk) (image s.disk).root k = Dentry.zero
  clean : ∀ k < slotCount (image s.disk).root,
    (slot (image s.disk) (image s.disk).root k).Clean

namespace Dense

variable {n : Nat}

theorem congr (h : Dense s n) (hsb : s'.sb = SuperBlock.new)
    (himage : image s'.disk = image s.disk) : Dense s' n := by
  obtain ⟨-, howned, htwo, hle, hinode, hblock, hcount, hlive, hfree, hclean⟩ := h
  rw [← himage] at howned hinode hblock hcount hlive hfree hclean
  exact ⟨hsb, howned, htwo, hle, hinode, hblock, hcount, hlive, hfree, hclean⟩

theorem slotCount_eq (h : Dense s n) :
    slotCount (image s.disk).root = if n ≤ 128 then 128 else 256 := by
  have hper : dentriesPerBlock = 128 := rfl
  unfold slotCount
  rw [h.count_eq, hper]
  split <;> rfl

theorem le_slotCount (h : Dense s n) : n ≤ slotCount (image s.disk).root := by
  have hle : n ≤ 134 := h.le
  rw [h.slotCount_eq]
  split <;> omega

/-- The inode that is taken next. -/
theorem firstFree (h : Dense s n) {ino : Nat} (hino : FirstFree (image s.disk) ino) : ino = n := by
  have hlt := hino.lt
  have hfree := hino.free
  rw [h.inodeUsed ino hlt, decide_eq_false_iff_not] at hfree
  by_contra hne
  have hbelow := hino.below n (by omega)
  rw [h.inodeUsed n (by omega), decide_eq_true_eq] at hbelow
  omega

/-- The directory is full only when its first block is. -/
theorem full (h : Dense s n)
    (hfull : ∀ k < slotCount (image s.disk).root,
      (slot (image s.disk) (image s.disk).root k).ino ≠ 0) :
    n = 128 ∧ slotCount (image s.disk).root = 128 ∧ (image s.disk).root.blockCount = 1 := by
  have hle : n ≤ 134 := h.le
  have heq : n = slotCount (image s.disk).root := by
    by_contra hne
    have hlt : n < slotCount (image s.disk).root := lt_of_le_of_ne h.le_slotCount hne
    have hzero := hfull n hlt
    rw [h.free n le_rfl hlt] at hzero
    exact hzero rfl
  have hcount := h.slotCount_eq
  have hblocks := h.count_eq
  have hper : dentriesPerBlock = 128 := rfl
  rw [hper] at hblocks
  split at hcount
  · next hsmall =>
      rw [if_pos hsmall] at hblocks
      exact ⟨by omega, hcount, hblocks⟩
  · omega

/-- The entry that the next file is written over. -/
def base (s : FsState) (n : Nat) : Dentry :=
  if n < slotCount (image s.disk).root then Dentry.zero
  else slot (image s.disk) (image s.disk).root (slotCount (image s.disk).root - 1)

theorem clean_base (h : Dense s n) : (base s n).Clean := by
  have hle := h.le_slotCount
  have hpos := h.two_le
  unfold base
  split
  · exact Dentry.clean_zero
  · exact h.clean _ (by omega)

end Dense

/-- What a call of `sfs_create` does to a file system on which only files have been created. -/
inductive DenseStep (s : FsState) (n : Nat) (name : CStr) : FsState → Int → Prop
  | failed {s' : FsState} (h : Dense s' n) (himage : image s'.disk = image s.disk)
      (hwhy : 0 ≤ sfsLookup s rootIno name ∨ n = maxInodes) : DenseStep s n name s' (-1)
  | created {s' : FsState} (h : Dense s' (n + 1)) (hn : n < maxInodes)
      (hold : ∀ k < n, slot (image s'.disk) (image s'.disk).root k =
        slot (image s.disk) (image s.disk).root k)
      (hnew : slot (image s'.disk) (image s'.disk).root n = (Dense.base s n).assign n name)
      (habsent : sfsLookup s rootIno name = -1) : DenseStep s n name s' n

/-- A file that is entered behind the others. -/
theorem Dense.add {n : Nat} (h : Dense s n) (hsb : s'.sb = SuperBlock.new)
    (howned : Owned (image s'.disk)) (hn : n < maxInodes)
    (habsent : sfsLookup s rootIno name = -1)
    (hinode : (image s'.disk).inodeUsed = Function.update (image s.disk).inodeUsed n true)
    (hblock : ∀ b < diskBlocks, (image s'.disk).blockUsed b =
      decide (b < dataBlockStart + (image s'.disk).root.blockCount))
    (hcount : (image s'.disk).root.blockCount = if n + 1 ≤ dentriesPerBlock then 1 else 2)
    (hslot : ∀ k < slotCount (image s'.disk).root, slot (image s'.disk) (image s'.disk).root k =
      if k < n then slot (image s.disk) (image s.disk).root k
      else if k = n then (base s n).assign n name else Dentry.zero) :
    DenseStep s n name s' n := by
  have htwo := h.two_le
  have hmax : maxInodes = 134 := rfl
  have hper : dentriesPerBlock = 128 := rfl
  have hle := h.le_slotCount
  have hle' : n + 1 ≤ slotCount (image s'.disk).root := by
    unfold slotCount
    rw [hcount]
    split <;> omega
  have hclean := (Dentry.string_assign_cut h.clean_base n name).2
  have hold : ∀ k < n, slot (image s'.disk) (image s'.disk).root k =
      slot (image s.disk) (image s.disk).root k := by
    intro k hk
    rw [hslot k (by omega), if_pos hk]
  have hnew : slot (image s'.disk) (image s'.disk).root n = (base s n).assign n name := by
    rw [hslot n hle', if_neg (Nat.lt_irrefl n), if_pos rfl]
  refine .created ⟨hsb, howned, by omega, hn, ?_, hblock, hcount, ?_, ?_, ?_⟩ hn hold hnew habsent
  · intro i hi
    rw [hinode]
    by_cases hin : i = n
    · simp [hin]
    · rw [Function.update_of_ne hin, h.inodeUsed i hi]
      simp only [decide_eq_decide]
      omega
  · intro k hk
    by_cases hkn : k < n
    · rw [hold k hkn]
      exact h.live k hkn
    · obtain rfl : k = n := by omega
      rw [hnew]
      change k ≠ 0
      omega
  · intro k hk hk'
    rw [hslot k hk', if_neg (by omega), if_neg (by omega)]
  · intro k hk
    rw [hslot k hk]
    split
    · next hkn => exact h.clean k (by omega)
    · split
      · exact hclean
      · exact Dentry.clean_zero

/-- There is a free entry: the next one. -/
theorem Dense.entered {n ino k : Nat} (h : Dense s n) (hsb : s'.sb = SuperBlock.new)
    (howned : Owned (image s'.disk)) (habsent : sfsLookup s rootIno name = -1)
    (hino : FirstFree (image s.disk) ino) (hk : k < slotCount (image s.disk).root)
    (hfree : (slot (image s.disk) (image s.disk).root k).ino = 0)
    (hbelow : ∀ j < k, (slot (image s.disk) (image s.disk).root j).ino ≠ 0)
    (himage : image s'.disk = (image s.disk).enter ino k name) : DenseStep s n name s' ino := by
  obtain rfl := h.firstFree hino
  obtain rfl : k = ino := by
    by_contra hne
    rcases Nat.lt_or_gt_of_ne hne with hlt | hgt
    · exact h.live k hlt hfree
    · apply hbelow ino hgt
      rw [h.free ino le_rfl (lt_trans hgt hk)]
      rfl
  have hcount : (image s'.disk).root.blockCount = (image s.disk).root.blockCount := by
    rw [himage, root_enter]
  have hslots : slotCount (image s'.disk).root = slotCount (image s.disk).root := by
    unfold slotCount
    rw [hcount]
  have hbase : base s k = slot (image s.disk) (image s.disk).root k := by
    unfold base
    rw [if_pos hk, h.free k le_rfl hk]
  have hcases := h.slotCount_eq
  have hper : dentriesPerBlock = 128 := rfl
  apply h.add hsb howned hino.lt habsent
  · rw [himage]
    rfl
  · intro b hb
    rw [hcount, himage]
    exact h.blockUsed b hb
  · rw [hcount, h.count_eq, hper]
    split at hcases
    · rw [if_pos (by omega), if_pos (by omega)]
    · rw [if_neg (by omega), if_neg (by omega)]
  · intro j hj
    rw [hslots] at hj
    have hslot := @slot_enter (image s.disk) name h.owned.rootOk.held k k j
      (lt_trans hino.lt (by decide)) hk hj
    rw [← himage] at hslot
    rw [hslot, hbase]
    by_cases hjk : j = k
    · rw [if_pos hjk, if_neg (by omega), if_pos hjk]
    · rw [if_neg hjk, if_neg hjk]
      split
      · rfl
      · exact h.free j (by omega) hj

/-- The first block of the directory is full. -/
theorem Dense.extended {n ino b : Nat} (h : Dense s n) (hsb : s'.sb = SuperBlock.new)
    (howned : Owned (image s'.disk)) (habsent : sfsLookup s rootIno name = -1)
    (hino : FirstFree (image s.disk) ino)
    (hfull : ∀ k < slotCount (image s.disk).root,
      (slot (image s.disk) (image s.disk).root k).ino ≠ 0)
    (hbfree : (image s.disk).blockUsed b = false) (hb : IsData b)
    (hbbelow : ∀ j < b, (image s.disk).blockUsed j = true)
    (himage : image s'.disk = (image s.disk).extend ino b name) : DenseStep s n name s' ino := by
  obtain rfl := h.firstFree hino
  obtain ⟨hino128, hslots, hone⟩ := h.full hfull
  have hstart : dataBlockStart = 5 := rfl
  have hper : dentriesPerBlock = 128 := rfl
  have hb6 : b = 6 := by
    have hfree := hbfree
    rw [h.blockUsed b hb.2, hone, decide_eq_false_iff_not] at hfree
    by_contra hne
    have hused := hbbelow 6 (by omega)
    rw [h.blockUsed 6 (by decide), hone] at hused
    exact absurd hused (by decide)
  have hcount : (image s'.disk).root.blockCount = 2 := by
    rw [himage, root_extend]
    change (image s.disk).root.blockCount + 1 = 2
    omega
  have hslots' : slotCount (image s'.disk).root = 256 := by
    unfold slotCount
    rw [hcount, hper]
  have hbase : base s ino = slot (image s.disk) (image s.disk).root
      (slotCount (image s.disk).root - 1) := by
    unfold base
    rw [if_neg (by omega)]
  apply h.add hsb howned hino.lt habsent
  · rw [himage]
    rfl
  · intro c hc
    have hold := h.blockUsed c hc
    rw [hcount, himage]
    change Function.update (image s.disk).blockUsed b true c = _
    by_cases hcb : c = b
    · rw [hcb, Function.update_self, hb6]
      rfl
    · rw [Function.update_of_ne hcb, hold, hone]
      simp only [decide_eq_decide]
      omega
  · rw [hcount, hper, if_neg (by omega)]
  · intro j hj
    have hslot := @slot_extend (image s.disk) name h.owned.rootOk ino b
      (lt_trans hino.lt (by decide)) hbfree j (by omega)
    rw [← himage] at hslot
    rw [hslot, hslots, hbase, hino128]
    rfl

theorem Dense.create {n : Nat} (h : Dense s n) (name : CStr) :
    DenseStep s n name (sfsCreate s rootIno name sfsFile).1
      (sfsCreate s rootIno name sfsFile).2 := by
  obtain ⟨htables, hcreated⟩ := sfsCreate_spec h.sb h.owned.rootOk name
  have howned := h.owned.created hcreated
  have hsb := htables.sb.trans h.sb
  have hlookup := sfsLookup_cases h.sb h.owned.rootOk name
  generalize sfsCreate s rootIno name sfsFile = r at htables hcreated howned hsb
  obtain ⟨s', ret⟩ := r
  dsimp only at htables hcreated howned hsb ⊢
  have hnone : (∀ k < slotCount (image s.disk).root,
      (slot (image s.disk) (image s.disk).root k).matches name = false) →
      sfsLookup s rootIno name = -1 := by
    intro habsent
    rcases hlookup with ⟨k, hk, hmatch, -, -⟩ | ⟨-, heq⟩
    · rw [habsent k hk] at hmatch
      cases hmatch
    · exact heq
  generalize himage : image s'.disk = g' at hcreated
  cases hcreated with
  | @present k hk hmatch =>
      refine .failed (h.congr hsb himage) himage (.inl ?_)
      rcases hlookup with ⟨j, -, -, -, heq⟩ | ⟨habsent, -⟩
      · rw [heq]
        omega
      · rw [habsent k hk] at hmatch
        cases hmatch
  | noInode hall =>
      refine .failed (h.congr hsb himage) himage (.inr ?_)
      by_contra hne
      have hlt : n < maxInodes := lt_of_le_of_ne h.le hne
      have hused := hall n hlt
      rw [h.inodeUsed n hlt, decide_eq_true_eq] at hused
      omega
  | noBlock hino hfull hwhy =>
      exfalso
      obtain ⟨-, -, hcount⟩ := h.full hfull
      rcases hwhy with hbig | hall
      · rw [hcount] at hbig
        exact absurd hbig (by decide)
      · have hused := hall 6 (by decide)
        rw [h.blockUsed 6 (by decide), hcount] at hused
        exact absurd hused (by decide)
  | entered hino habsent hk hfree hbelow =>
      exact h.entered hsb howned (hnone habsent) hino hk hfree hbelow himage
  | extended hino habsent hfull hcount hb hbfree hbbelow =>
      exact h.extended hsb howned (hnone habsent) hino hfull hbfree hb hbbelow himage

/-- The first live entry with a name is the one that `sfs_lookup` returns. -/
theorem Dense.lookup_eq {n k : Nat} (h : Dense s n) (hk : k < slotCount (image s.disk).root)
    (hmatch : (slot (image s.disk) (image s.disk).root k).matches name = true)
    (hbelow : ∀ j < k, (slot (image s.disk) (image s.disk).root j).matches name = false) :
    sfsLookup s rootIno name = (slot (image s.disk) (image s.disk).root k).ino := by
  have hroot := h.owned.rootOk
  have hlt := hroot.slot_lt k hk
  have hmax : maxInodes = 134 := rfl
  rw [sfsLookup_eq h.sb hroot.type_eq hroot.held.onData hk hmatch hbelow]
  exact int32_of_lt (by omega)

/-- A live entry with the name is one of the first `n`. -/
theorem Dense.lt_of_matches {n k : Nat} (h : Dense s n) (hk : k < slotCount (image s.disk).root)
    (hmatch : (slot (image s.disk) (image s.disk).root k).matches name = true) : k < n := by
  by_contra hge
  rw [h.free k (by omega) hk] at hmatch
  exact (Dentry.matches_iff.mp hmatch).1 rfl

/-- The names that were found are found as before. -/
theorem Dense.keeps_lookup {n : Nat} (h : Dense s n) (h' : Dense s' (n + 1))
    (hold : ∀ k < n, slot (image s'.disk) (image s'.disk).root k =
      slot (image s.disk) (image s.disk).root k) {other : CStr}
    (hfound : 0 ≤ sfsLookup s rootIno other) :
    sfsLookup s' rootIno other = sfsLookup s rootIno other := by
  rcases sfsLookup_cases h.sb h.owned.rootOk other with ⟨k, hk, hmatch, hbelow, heq⟩ | ⟨-, hnone⟩
  · have hkn := h.lt_of_matches hk hmatch
    have hle := h'.le_slotCount
    rw [heq, ← hold k hkn]
    apply h'.lookup_eq (by omega)
    · rwa [hold k hkn]
    · intro j hj
      rw [hold j (by omega)]
      exact hbelow j hj
  · omega

/-- The new file is found when it is stored under its name, and only then. -/
theorem Dense.lookup_new_iff {n : Nat} (h : Dense s n) (h' : Dense s' (n + 1))
    (hlen : name.bytes.length < maxFilename) (habsent : sfsLookup s rootIno name < 0)
    (hold : ∀ k < n, slot (image s'.disk) (image s'.disk).root k =
      slot (image s.disk) (image s.disk).root k)
    (hnew : slot (image s'.disk) (image s'.disk).root n = (base s n).assign n name) :
    sfsLookup s' rootIno name = n ↔ (base s n).string.length ≤ name.bytes.length := by
  have hle := h.le_slotCount
  have hle' := h'.le_slotCount
  have hstring := (Dentry.string_assign h.clean_base n hlen).1
  have hmiss : ∀ k < n, (slot (image s'.disk) (image s'.disk).root k).matches name = false := by
    intro k hk
    rw [hold k hk]
    rcases sfsLookup_cases h.sb h.owned.rootOk name with ⟨j, hj, -, -, heq⟩ | ⟨hnone, -⟩
    · omega
    · exact hnone k (by omega)
  constructor
  · intro hfound
    by_contra hshort
    have hmissNew : (slot (image s'.disk) (image s'.disk).root n).matches name = false := by
      rw [hnew, Bool.eq_false_iff]
      intro hmatch
      have heq := (Dentry.matches_iff.mp hmatch).2
      rw [hstring] at heq
      have hlength := congrArg List.length heq
      simp only [List.length_append, List.length_drop] at hlength
      omega
    rcases sfsLookup_cases h'.sb h'.owned.rootOk name with ⟨k, hk, hmatch, -, -⟩ | ⟨-, heq⟩
    · have hkn := h'.lt_of_matches hk hmatch
      by_cases hkeq : k = n
      · rw [hkeq, hmissNew] at hmatch
        cases hmatch
      · rw [hmiss k (by omega)] at hmatch
        cases hmatch
    · omega
  · intro hlong
    have hmatch : (slot (image s'.disk) (image s'.disk).root n).matches name = true := by
      apply Dentry.matches_iff.mpr
      rw [hnew]
      refine ⟨?_, ?_⟩
      · have := h.two_le
        change n ≠ 0
        omega
      · rw [hstring, List.drop_eq_nil_of_le hlong, List.append_nil]
    rw [h'.lookup_eq (by omega) hmatch hmiss, hnew]
    rfl

/-- Calls of `sfs_create` for files in the root directory. -/
def createStep (s : FsState) (name : CStr) : Option FsState :=
  some (sfsCreate s rootIno name sfsFile).1

/-- Names of 1 to 27 characters. -/
def NameOk (name : CStr) : Prop := 1 ≤ name.bytes.length ∧ name.bytes.length ≤ 27

theorem dense_format (s : FsState) : Dense (sfsFormat s) 2 := by
  have hboot := booted_fsBoot s
  have hdisk : (fsBoot s).disk = (sfsFormat s).disk := by rw [fsBoot_eq]
  have howned := hboot.inv.owned
  have hinode := hboot.inodeUsed
  have hblock := hboot.blockUsed
  have hroot := hboot.root
  have hslot := fun k => @Booted.slot_eq (fsBoot s) hboot k
  rw [hdisk] at howned hinode hblock hroot hslot
  have hcount : (image (sfsFormat s).disk).root.blockCount = 1 := by
    rw [hroot]
    rfl
  have hslots : slotCount (image (sfsFormat s).disk).root = 128 := by
    unfold slotCount
    rw [hcount]
    rfl
  have hsb : (sfsFormat s).sb = SuperBlock.new := by
    rw [sfsFormat_eq]
    exact (sameTables_sfsWriteInode (formatData s) Inode.newRoot).sb
  refine ⟨hsb, howned, le_rfl, by decide, ?_, ?_, ?_, ?_, ?_, ?_⟩
  · intro i _
    rw [hinode]
    have hone : rootIno = 1 := rfl
    simp only [decide_eq_decide]
    omega
  · intro b _
    rw [hblock, hcount]
    simp only [decide_eq_decide]
    omega
  · rw [hcount, if_pos (by decide)]
  · intro k hk
    rw [hslot k (by omega)]
    obtain rfl | rfl : k = 0 ∨ k = 1 := by omega
    · decide
    · decide
  · intro k hk hk'
    rw [hslot k hk', if_neg (by omega), if_neg (by omega)]
  · intro k hk
    rw [hslot k hk]
    split
    · exact (Dentry.string_assign Dentry.clean_zero _ (by decide)).2
    · split
      · exact (Dentry.string_assign Dentry.clean_zero _ (by decide)).2
      · exact Dentry.clean_zero

theorem Dense.exists_create {n : Nat} (h : Dense s n) (name : CStr) :
    ∃ m, Dense (sfsCreate s rootIno name sfsFile).1 m := by
  have hstep := h.create name
  generalize (sfsCreate s rootIno name sfsFile).1 = s' at hstep ⊢
  generalize (sfsCreate s rootIno name sfsFile).2 = ret at hstep
  cases hstep with
  | failed h' => exact ⟨n, h'⟩
  | created h' => exact ⟨n + 1, h'⟩

theorem Dense.reach {s₀ : FsState} {ok : FsState → CStr → Prop}
    (h : Reach createStep ok (sfsFormat s₀) s) : ∃ n, Dense s n := by
  apply h.invariant ⟨2, dense_format s₀⟩
  intro s name s' hinv _ hs
  obtain ⟨n, hdense⟩ := hinv
  obtain rfl := Option.some.inj hs
  exact hdense.exists_create name

/-- A file that is created is found under its name, and the other names are found as before. -/
def Findable (s : FsState) (name : CStr) : Prop :=
  0 ≤ (sfsCreate s rootIno name sfsFile).2 →
    sfsLookup (sfsCreate s rootIno name sfsFile).1 rootIno name =
        (sfsCreate s rootIno name sfsFile).2 ∧
      ∀ other, 0 ≤ sfsLookup s rootIno other →
        sfsLookup (sfsCreate s rootIno name sfsFile).1 rootIno other =
          sfsLookup s rootIno other

/-- The root directory has a free entry in one of its blocks, or the name is at least as long as
that of its last entry. -/
def Storable (s : FsState) (name : CStr) : Prop :=
  (∃ k < slotCount (image s.disk).root, (slot (image s.disk) (image s.disk).root k).ino = 0) ∨
    (slot (image s.disk) (image s.disk).root
      (slotCount (image s.disk).root - 1)).string.length ≤ name.bytes.length

theorem Dense.storable_iff {n : Nat} (h : Dense s n) :
    Storable s name ↔ (base s n).string.length ≤ name.bytes.length := by
  have hle := h.le_slotCount
  unfold Storable base
  split
  · next hlt =>
      rw [Dentry.string_zero]
      refine ⟨fun _ => Nat.zero_le _, fun _ => .inl ⟨n, hlt, ?_⟩⟩
      rw [h.free n le_rfl hlt]
      rfl
  · next hge =>
      constructor
      · rintro (⟨k, hk, hzero⟩ | hlong)
        · exact absurd hzero (h.live k (by omega))
        · exact hlong
      · exact .inr

theorem Dense.findable_iff {n : Nat} (h : Dense s n) (hlen : name.bytes.length < maxFilename)
    (habsent : sfsLookup s rootIno name < 0) : Findable s name ↔ Storable s name := by
  rw [h.storable_iff]
  unfold Findable
  have hstep := h.create name
  generalize (sfsCreate s rootIno name sfsFile).1 = s' at hstep ⊢
  generalize (sfsCreate s rootIno name sfsFile).2 = ret at hstep ⊢
  cases hstep with
  | failed _ _ hwhy =>
      have hn : n = 134 := hwhy.resolve_left (by omega)
      have hcount := h.slotCount_eq
      rw [if_neg (by omega)] at hcount
      constructor
      · intro _
        unfold base
        rw [if_pos (by omega), Dentry.string_zero]
        exact Nat.zero_le _
      · intro _ hret
        omega
  | created h' _ hold hnew =>
      rw [← h.lookup_new_iff h' hlen habsent hold hnew]
      constructor
      · intro hfound
        exact (hfound (by omega)).1
      · intro hfound _
        exact ⟨hfound, fun other hother => h.keeps_lookup h' hold hother⟩

theorem created_found_iff {s₀ : FsState}
    (h : Reach createStep (fun _ name => NameOk name) (sfsFormat s₀) s) (hname : NameOk name)
    (habsent : sfsLookup s rootIno name < 0) : Findable s name ↔ Storable s name := by
  obtain ⟨n, hdense⟩ := Dense.reach h
  have hmax : maxFilename = 28 := rfl
  have hle := hname.2
  exact hdense.findable_iff (by omega) habsent

theorem Dense.absent {n : Nat} (h : Dense s n)
    (hmiss : ∀ k < n, (slot (image s.disk) (image s.disk).root k).string ≠ name.bytes) :
    sfsLookup s rootIno name = -1 := by
  rcases sfsLookup_cases h.sb h.owned.rootOk name with ⟨k, hk, hmatch, -, -⟩ | ⟨-, heq⟩
  · have hkn := h.lt_of_matches hk hmatch
    exact absurd (Dentry.matches_iff.mp hmatch).2 (hmiss k hkn)
  · exact heq

/-- A name of two characters, a different one for every `k < 255`. -/
def fileName (k : Nat) : CStr where
  bytes := [200, UInt8.ofNat (k % 255 + 1)]
  noNul := by
    have hlt := Nat.mod_lt k (show 0 < 255 by decide)
    have hne : UInt8.ofNat (k % 255 + 1) ≠ 0 := by
      intro heq
      have := congrArg UInt8.toNat heq
      rw [UInt8.toNat_ofNat', UInt8.toNat_zero] at this
      omega
    rw [List.mem_cons, List.mem_singleton, not_or]
    exact ⟨by decide, Ne.symm hne⟩

theorem fileName_injective {j k : Nat} (hj : j < 255) (hk : k < 255)
    (h : (fileName j).bytes = (fileName k).bytes) : j = k := by
  have heq : UInt8.ofNat (j % 255 + 1) = UInt8.ofNat (k % 255 + 1) := by simpa [fileName] using h
  have hnat := congrArg UInt8.toNat heq
  rw [UInt8.toNat_ofNat', UInt8.toNat_ofNat'] at hnat
  omega

/-- The names in a directory of `m` files of two characters. -/
structure Filled (s : FsState) (m : Nat) : Prop where
  dense : Dense s (m + 2)
  dots : ∀ k < 2, (slot (image s.disk) (image s.disk).root k).string.head? = some 46
  files : ∀ k < m,
    (slot (image s.disk) (image s.disk).root (k + 2)).string = (fileName k).bytes

theorem Filled.absent {m : Nat} (h : Filled s m) (hdot : name.bytes.head? ≠ some 46)
    (hfile : ∀ k < m, (fileName k).bytes ≠ name.bytes) : sfsLookup s rootIno name = -1 := by
  apply h.dense.absent
  intro k hk heq
  by_cases hlt : k < 2
  · exact hdot (heq ▸ h.dots k hlt)
  · obtain ⟨j, rfl⟩ := Nat.exists_eq_add_of_le (Nat.le_of_not_lt hlt)
    rw [Nat.add_comm 2 j, h.files j (by omega)] at heq
    exact hfile j (by omega) heq

theorem filled_format (s : FsState) : Filled (sfsFormat s) 0 := by
  have hboot := booted_fsBoot s
  have hdisk : (fsBoot s).disk = (sfsFormat s).disk := by rw [fsBoot_eq]
  have hslot := fun k => @Booted.slot_eq (fsBoot s) hboot k
  rw [hdisk] at hslot
  have hslots := (dense_format s).le_slotCount
  refine ⟨dense_format s, ?_, ?_⟩
  · intro k hk
    rw [hslot k (by omega)]
    obtain rfl | rfl : k = 0 ∨ k = 1 := by omega
    · decide
    · decide
  · intro k hk
    exact absurd hk (by omega)

theorem Filled.create {m : Nat} (h : Filled s m) (hm : m < 126) :
    Filled (sfsCreate s rootIno (fileName m) sfsFile).1 (m + 1) := by
  have habsent : sfsLookup s rootIno (fileName m) = -1 := by
    apply h.absent (by simp [fileName])
    intro k hk heq
    have := fileName_injective (by omega) (by omega) heq
    omega
  have hlen : (fileName m).bytes.length < maxFilename := Nat.lt_of_sub_eq_succ rfl
  have hstep := h.dense.create (fileName m)
  generalize (sfsCreate s rootIno (fileName m) sfsFile).1 = s' at hstep ⊢
  generalize (sfsCreate s rootIno (fileName m) sfsFile).2 = ret at hstep
  have hslots := h.dense.slotCount_eq
  have hper : dentriesPerBlock = 128 := rfl
  have hmax : maxInodes = 134 := rfl
  cases hstep with
  | failed _ _ hwhy => omega
  | created h' _ hold hnew =>
      refine ⟨h', ?_, ?_⟩
      · intro k hk
        rw [hold k (by omega)]
        exact h.dots k hk
      · intro k hk
        by_cases hkm : k = m
        · rw [hkm, hnew, (Dentry.string_assign h.dense.clean_base _ hlen).1]
          have hbase : Dense.base s (m + 2) = Dentry.zero := by
            unfold Dense.base
            rw [if_pos]
            rw [hslots]
            split
            · omega
            · omega
          rw [hbase, Dentry.string_zero, List.drop_nil, List.append_nil]
        · rw [hold (k + 2) (by omega)]
          exact h.files k (by omega)

theorem exists_filled (s₀ : FsState) {m : Nat} (hm : m ≤ 126) :
    ∃ s, Reach createStep (fun _ name => NameOk name) (sfsFormat s₀) s ∧ Filled s m := by
  induction m with
  | zero => exact ⟨sfsFormat s₀, .refl, filled_format s₀⟩
  | succ m ih =>
      obtain ⟨s, hreach, hfilled⟩ := ih (by omega)
      have hname : NameOk (fileName m) := by simp [NameOk, fileName]
      exact ⟨_, .step hreach hname rfl, hfilled.create (by omega)⟩

theorem created_found_blank :
    sfsLookup (sfsFormat .blank) rootIno ⟨[0x61], by decide⟩ < 0 ∧
      (Findable (sfsFormat .blank) ⟨[0x61], by decide⟩ ↔
        Storable (sfsFormat .blank) ⟨[0x61], by decide⟩) := by
  have habsent : sfsLookup (sfsFormat .blank) rootIno ⟨[0x61], by decide⟩ = -1 := by
    apply (filled_format _).absent (by decide)
    intro k hk
    exact absurd hk (by omega)
  exact ⟨by omega, created_found_iff .refl ⟨by decide, by decide⟩ (by omega)⟩

theorem created_not_found :
    ¬ ∀ (s₀ s : FsState) (name : CStr),
      Reach createStep (fun _ name => NameOk name) (sfsFormat s₀) s → NameOk name →
      sfsLookup s rootIno name < 0 → Findable s name := by
  intro hfound
  obtain ⟨s, hreach, hfilled⟩ := exists_filled .blank (le_refl 126)
  let short : CStr := ⟨[7], by decide⟩
  have habsent : sfsLookup s rootIno short = -1 := by
    apply hfilled.absent (by decide)
    intro k _ heq
    have := congrArg List.length heq
    simp [fileName, short] at this
  have hfind := hfound .blank s short hreach ⟨by decide, by decide⟩ (by omega)
  rw [hfilled.dense.findable_iff (by decide) (by omega), hfilled.dense.storable_iff] at hfind
  have hslots := hfilled.dense.slotCount_eq
  rw [if_pos (by decide)] at hslots
  have hbase : Dense.base s (126 + 2) = slot (image s.disk) (image s.disk).root (125 + 2) := by
    unfold Dense.base
    rw [hslots]
    rfl
  rw [hbase, hfilled.files 125 (by omega)] at hfind
  simp [fileName, short] at hfind

end SRos.Fs
