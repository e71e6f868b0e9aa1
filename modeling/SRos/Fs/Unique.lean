import SRos.Fs.Names

/-!
# Names that occur once

`sfs_create` looks for the name it is given, and then stores what is left of it after the copy.
A long name is cut, and a short name in a new block gets the end of the last entry's name. When
the stored form is the name of another file, the directory has two entries of one name.
-/

namespace SRos.Fs

open Bytes

variable {s s' : FsState} {name : CStr} {n : Nat}

/-- No two live entries of the root directory have the same name. -/
def NamesUnique (s : FsState) : Prop :=
  ∀ j < slotCount (image s.disk).root, ∀ k < slotCount (image s.disk).root,
    (slot (image s.disk) (image s.disk).root j).ino ≠ 0 →
    (slot (image s.disk) (image s.disk).root k).ino ≠ 0 →
    (slot (image s.disk) (image s.disk).root j).string =
      (slot (image s.disk) (image s.disk).root k).string → j = k

/-- The name that is left in the entry a new name is copied to: that of the last entry, when no
entry of the root directory is free. -/
def oldName (s : FsState) : List UInt8 :=
  if ∃ k < slotCount (image s.disk).root, (slot (image s.disk) (image s.disk).root k).ino = 0 then
    []
  else
    (slot (image s.disk) (image s.disk).root (slotCount (image s.disk).root - 1)).string

theorem Dentry.zero_not_mem_string (d : Dentry) : (0 : UInt8) ∉ d.string := by
  intro hmem
  have hlive := List.mem_takeWhile_imp hmem
  simp at hlive

theorem zero_not_mem_oldName (s : FsState) : (0 : UInt8) ∉ oldName s := by
  unfold oldName
  split
  · exact List.not_mem_nil
  · exact Dentry.zero_not_mem_string _

/-- The form in which a name is stored: its first 27 characters, and behind them the end of the
old name. -/
def storedName (s : FsState) (name : CStr) : CStr where
  bytes := name.bytes.take (maxFilename - 1) ++ (oldName s).drop name.bytes.length
  noNul := by
    rw [List.mem_append, not_or]
    exact ⟨fun hmem => name.noNul (List.mem_of_mem_take hmem),
      fun hmem => zero_not_mem_oldName s (List.mem_of_mem_drop hmem)⟩

/-- Nothing is stored, or the name is refused, or there is no file of the stored name. -/
def storedOk (s : FsState) (name : CStr) : Prop :=
  (∀ i < maxInodes, (image s.disk).inodeUsed i = true) ∨ 0 ≤ sfsLookup s rootIno name ∨
    sfsLookup s rootIno (storedName s name) < 0

theorem Dense.oldName_eq (h : Dense s n) : oldName s = (base s n).string := by
  have hle := h.le_slotCount
  unfold oldName base
  by_cases hlt : n < slotCount (image s.disk).root
  · have hfree : (slot (image s.disk) (image s.disk).root n).ino = 0 := by
      rw [h.free n le_rfl hlt]
      rfl
    rw [if_pos hlt, if_pos ⟨n, hlt, hfree⟩, Dentry.string_zero]
  · rw [if_neg hlt, if_neg]
    rintro ⟨k, hk, hzero⟩
    exact h.live k (by omega) hzero

/-- The live entries are the first ones. -/
theorem Dense.live_iff (h : Dense s n) {k : Nat} (hk : k < slotCount (image s.disk).root) :
    (slot (image s.disk) (image s.disk).root k).ino ≠ 0 ↔ k < n := by
  refine ⟨fun hlive => ?_, fun hlt => h.live k hlt⟩
  by_contra hge
  apply hlive
  rw [h.free k (by omega) hk]
  rfl

theorem Dense.unique_iff (h : Dense s n) : NamesUnique s ↔
    ∀ j < n, ∀ k < n, (slot (image s.disk) (image s.disk).root j).string =
      (slot (image s.disk) (image s.disk).root k).string → j = k := by
  have hle := h.le_slotCount
  constructor
  · intro hunique j hj k hk
    exact hunique j (by omega) k (by omega) (h.live j hj) (h.live k hk)
  · intro hunique j hj k hk hlivej hlivek
    exact hunique j ((h.live_iff hj).mp hlivej) k ((h.live_iff hk).mp hlivek)

theorem Dense.lookup_neg_iff (h : Dense s n) : sfsLookup s rootIno name < 0 ↔
    ∀ k < n, (slot (image s.disk) (image s.disk).root k).string ≠ name.bytes := by
  have hle := h.le_slotCount
  constructor
  · intro habsent k hk heq
    rcases sfsLookup_cases h.sb h.owned.rootOk name with ⟨j, -, -, -, hfound⟩ | ⟨hnone, -⟩
    · omega
    · have hmiss := hnone k (by omega)
      rw [Dentry.matches_iff.mpr ⟨h.live k hk, heq⟩] at hmiss
      cases hmiss
  · intro hmiss
    rw [h.absent hmiss]
    decide

/-- The names after a file has been entered. -/
theorem Dense.unique_created (h : Dense s n) (hunique : NamesUnique s) (h' : Dense s' (n + 1))
    (hold : ∀ k < n, slot (image s'.disk) (image s'.disk).root k =
      slot (image s.disk) (image s.disk).root k)
    (hnew : slot (image s'.disk) (image s'.disk).root n = (base s n).assign n name) :
    NamesUnique s' ↔ sfsLookup s rootIno (storedName s name) < 0 := by
  have hstring : (slot (image s'.disk) (image s'.disk).root n).string =
      (storedName s name).bytes := by
    have hold := h.oldName_eq
    rw [hnew, (Dentry.string_assign_cut h.clean_base n name).1, ← hold]
    rfl
  have hunique := h.unique_iff.mp hunique
  rw [h'.unique_iff, h.lookup_neg_iff]
  constructor
  · intro hunique' k hk heq
    have hkn := hunique' k (by omega) n (by omega) (by rw [hold k hk, heq, hstring])
    omega
  · intro hmiss j hj k hk heq
    by_cases hjn : j = n
    · by_cases hkn : k = n
      · omega
      · rw [hjn, hstring, hold k (by omega)] at heq
        exact absurd heq.symm (hmiss k (by omega))
    · by_cases hkn : k = n
      · rw [hkn, hstring, hold j (by omega)] at heq
        exact absurd heq (hmiss j (by omega))
      · rw [hold j (by omega), hold k (by omega)] at heq
        exact hunique j (by omega) k (by omega) heq

theorem NamesUnique.congr (h : NamesUnique s) (himage : image s'.disk = image s.disk) :
    NamesUnique s' := by
  unfold NamesUnique
  rw [himage]
  exact h

theorem Dense.unique_create_iff (h : Dense s n) (hunique : NamesUnique s) (name : CStr) :
    NamesUnique (sfsCreate s rootIno name sfsFile).1 ↔ storedOk s name := by
  have hstep := h.create name
  generalize (sfsCreate s rootIno name sfsFile).1 = s' at hstep ⊢
  generalize (sfsCreate s rootIno name sfsFile).2 = ret at hstep
  cases hstep with
  | failed _ himage hwhy =>
      refine ⟨fun _ => ?_, fun _ => hunique.congr himage⟩
      rcases hwhy with hfound | hfull
      · exact .inr (.inl hfound)
      · left
        intro i hi
        rw [h.inodeUsed i hi, decide_eq_true_eq]
        omega
  | created h' hn hold hnew habsent =>
      rw [h.unique_created hunique h' hold hnew]
      refine ⟨fun hstored => .inr (.inr hstored), ?_⟩
      rintro (hall | hfound | hstored)
      · have hused := hall n hn
        rw [h.inodeUsed n hn, decide_eq_true_eq] at hused
        omega
      · omega
      · exact hstored

theorem namesUnique_format (s : FsState) : NamesUnique (sfsFormat s) := by
  rw [(dense_format s).unique_iff]
  have hboot := booted_fsBoot s
  have hdisk : (fsBoot s).disk = (sfsFormat s).disk := by rw [fsBoot_eq]
  have hslot := fun k => @Booted.slot_eq (fsBoot s) hboot k
  have hslots := (dense_format s).le_slotCount
  rw [hdisk] at hslot
  have hdots : ∀ k < 2, (slot (image (sfsFormat s).disk) (image (sfsFormat s).disk).root k).string.length
      = k + 1 := by
    intro k hk
    rw [hslot k (by omega)]
    obtain rfl | rfl : k = 0 ∨ k = 1 := by omega
    · decide
    · decide
  intro j hj k hk heq
  have hlength := congrArg List.length heq
  rw [hdots j hj, hdots k hk] at hlength
  omega

/-- In every run of calls of `sfs_create` from `sfs_format` on, each of which has no inode left,
refuses the name, or stores the name in a form that no file has: the names of the root directory
are different from each other. The next call keeps them so if and only if it is such a call. -/
theorem names_unique {s₀ : FsState} (h : Reach createStep storedOk (sfsFormat s₀) s) :
    NamesUnique s ∧
      ∀ name, NamesUnique (sfsCreate s rootIno name sfsFile).1 ↔ storedOk s name := by
  have hboth : (∃ n, Dense s n) ∧ NamesUnique s := by
    apply h.invariant ⟨⟨2, dense_format s₀⟩, namesUnique_format s₀⟩
    intro s name s' hinv hok hs
    obtain ⟨⟨n, hdense⟩, hunique⟩ := hinv
    obtain rfl := Option.some.inj hs
    exact ⟨hdense.exists_create name, (hdense.unique_create_iff hunique name).mpr hok⟩
  obtain ⟨⟨n, hdense⟩, hunique⟩ := hboth
  exact ⟨hunique, hdense.unique_create_iff hunique⟩

/-- A name of 28 characters. -/
def longName : CStr := ⟨List.replicate 28 0x61, by decide⟩

/-- The entries 2 and 3 of the root directory are live and have the same name. -/
def twiceTest (s : FsState) : Bool :=
  let g := image s.disk
  decide (3 < slotCount g.root) && (slot g g.root 2).ino != 0 && (slot g g.root 3).ino != 0 &&
    decide ((slot g g.root 2).string = (slot g g.root 3).string)

def storedOkTest (s : FsState) (name : CStr) : Bool :=
  decide (sfsLookup s rootIno (storedName s name) < 0)

/-- A file next to the two entries of the new directory. -/
theorem names_unique_two : ∃ s, Reach createStep storedOk (sfsFormat .blank) s ∧
    0 ≤ sfsLookup s rootIno ⟨[0x61], by decide⟩ ∧ NamesUnique s := by
  have hrun : ((some (sfsFormat .blank)).bind (runList createStep storedOkTest
      [⟨[0x61], by decide⟩])).any
      (fun s => decide (0 ≤ sfsLookup s rootIno ⟨[0x61], by decide⟩)) = true := by
    decide +kernel
  obtain ⟨s₀, s, hs₀, hrun, htest⟩ := Reach.exists_of_runList hrun
  obtain rfl := Option.some.inj hs₀
  have hreach : Reach createStep storedOk (sfsFormat .blank) s :=
    hrun.mono fun s name hok => .inr (.inr (of_decide_eq_true hok))
  exact ⟨s, hreach, of_decide_eq_true htest, (names_unique hreach).1⟩

/-- Two calls with one name of 28 characters make two entries of the same name. -/
theorem not_names_unique : ∃ s, Reach createStep (fun _ _ => True) (sfsFormat .blank) s ∧
    ¬ NamesUnique s := by
  have hrun : ((some (sfsFormat .blank)).bind (runList createStep (fun _ _ => true)
      [longName, longName])).any twiceTest = true := by
    decide +kernel
  obtain ⟨s₀, s, hs₀, hreach, htest⟩ := Reach.exists_of_runList hrun
  obtain rfl := Option.some.inj hs₀
  refine ⟨s, hreach.mono fun _ _ _ => trivial, fun hunique => ?_⟩
  simp only [twiceTest, Bool.and_eq_true, bne_iff_ne, decide_eq_true_eq] at htest
  obtain ⟨⟨⟨hcount, hlive⟩, hlive'⟩, heq⟩ := htest
  have := hunique 2 (by omega) 3 hcount hlive hlive' heq
  omega

end SRos.Fs
