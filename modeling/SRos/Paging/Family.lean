import SRos.Paging.Alloc
import SRos.Paging.Space

/-!
# Directories and their clones

A laid-out address space can be cloned, and the clone is laid out again: its own tables and pages
are in frames that were free, and what it shares with the original stays where it is.
-/

namespace SRos.Paging

open Bytes

section Family

variable {own : Nat → Kind} {s s' : Vm} {bssEnd d : Nat}

/-- The pages of the first 4 MB are not user pages. -/
theorem Laid.user_identity (h : Laid own s) {j : Nat} (hj : j < 1024) :
    user (pteAt s.mem s.cr3 0 j) = false := by
  have hpte : pteAt s.mem s.cr3 0 j = j * 4096 ||| 0x03 := by
    rw [pteAt, h.core.first.2]
    exact h.identity j hj
  have hnot : ¬ user (pteAt s.mem s.cr3 0 j) = true := by
    rw [hpte, user_iff, or_flags (by omega) (by decide)]
    omega
  simpa using hnot

/-- A user page is in a frame of the allocator. -/
theorem Laid.page (h : Laid own s) {i j : Nat} (hi : i < 1023) (hj : j < 1024)
    (hmapped : mapped s.mem s.cr3 i j = true) (huser : user (pteAt s.mem s.cr3 i j) = true) :
    own (frameOf (pteAt s.mem s.cr3 i j)) = .page := by
  obtain ⟨hpde, hpte⟩ := mapped_iff.mp hmapped
  obtain ⟨k, hk⟩ := h.cr3
  by_cases hzero : i = 0
  · rw [hzero, h.user_identity hj] at huser
    cases huser
  · exact h.targets _ (h.entries _ k hk i (by omega) hi hpde) j hj hpte

theorem Laid.ident (h : Laid own s) {f : Nat} (hf : own f ≠ .none) : Ident s f := by
  have hframe := h.isFrame hf
  obtain ⟨haligned, hlt⟩ := hframe
  unfold lowEnd at hlt
  exact fun o ho => h.core.low (by unfold lowEnd; omega)

/-- A laid-out address space can be cloned. -/
theorem Laid.cloneable (h : Laid own s) : Cloneable s := by
  obtain ⟨k, hk⟩ := h.cr3
  have hcore := h.core
  have hfree : ∀ f ∈ s.free, own f ≠ .none := fun f hf => by simp [h.free_of_mem hf]
  refine ⟨⟨hcore.dir.1, hcore.dir.lt⟩, ⟨?_, ?_⟩, h.ident (by simp [hk]), ?_, ?_, h.stacked.nodup, ?_,
    ?_, ?_, ?_⟩
  · rw [hcore.self, present_or hcore.dir.1 (by decide)]
    rfl
  · rw [hcore.self, frameOf_or hcore.dir.1 hcore.dir.lt (by decide)]
  · intro i j hi hj hmapped huser
    exact h.ident (by simp [h.page hi hj hmapped huser])
  · exact fun f hf => ⟨(h.isFrame (hfree f hf)).1, (h.isFrame (hfree f hf)).lt⟩
  · exact fun f hf => h.ident (hfree f hf)
  · intro hmem
    have hfree := h.free_of_mem hmem
    rw [hk] at hfree
    cases hfree
  · intro i hi hpde hmem
    have hfree := h.free_of_mem hmem
    by_cases hzero : i = 0
    · rw [hzero, hcore.first.2, h.id] at hfree
      cases hfree
    · rw [h.entries _ k hk i (by omega) hi hpde] at hfree
      cases hfree
  · intro i j hi hj hmapped huser hmem
    have hfree := h.free_of_mem hmem
    rw [h.page hi hj hmapped huser] at hfree
    cases hfree

/-- The table of the first 4 MB is shared. -/
theorem Laid.not_deep (h : Laid own s) {kernelEnd : Nat} : deep kernelEnd s 0 = false := by
  have hnone : ((List.range 1024).any fun j => present (pteAt s.mem s.cr3 0 j) &&
      user (pteAt s.mem s.cr3 0 j) && !inKernel kernelEnd (pageVaddr 0 j)) = false := by
    apply List.any_eq_false.mpr
    intro j hj
    simp [h.user_identity (List.mem_range.mp hj)]
  simp [deep, hnone]

/-- A present entry of the clone shares a table with the original or has one of its own. -/
theorem Cloned.entry {log : List (Use × Nat)} (h₀ : Cloneable s) (h : Cloned bssEnd s d log s')
    {i : Nat} (hi : i < 1023) (hp : present (pdeAt s'.mem d i) = true) :
    (deep (kernelEndPage bssEnd) s i = false ∧ present (pdeAt s.mem s.cr3 i) = true ∧
      pdeAt s'.mem d i = pdeAt s.mem s.cr3 i) ∨
    (deep (kernelEndPage bssEnd) s i = true ∧
      (Use.table i, frameOf (pdeAt s'.mem d i)) ∈ log ∧
      ∀ j < 1024, PteDone (keepOf (kernelEndPage bssEnd) i) s i (frameOf (pdeAt s'.mem d i)) log
        s'.mem j) := by
  have hdone := h.done i hi
  cases hpde : present (pdeAt s.mem s.cr3 i) with
  | false =>
      have hzero : pdeAt s'.mem d i = 0 := hdone.absent hpde
      rw [hzero] at hp
      cases hp
  | true =>
      cases hdeep : deep (kernelEndPage bssEnd) s i with
      | false => exact .inl ⟨rfl, rfl, hdone.shared hpde hdeep⟩
      | true =>
          obtain ⟨t, ht, hword, hptes⟩ := hdone.copied hdeep
          have hmem : t ∈ s.free := by
            rw [h.pops]
            exact List.mem_append_left _ (List.mem_cons_of_mem _ (List.mem_map_of_mem ht))
          have hframe : frameOf (pdeAt s'.mem d i) = t := by
            rw [pdeAt, hword]
            exact frameOf_or (h₀.aligned t hmem).1 (h₀.aligned t hmem).2 (flagsOf_lt _)
          rw [hframe]
          exact .inr ⟨rfl, ht, hptes⟩

/-- The frame holds a table that only the clone at `d` refers to. -/
def newTable (bssEnd : Nat) (s : Vm) (d : Nat) (s' : Vm) (f : Nat) : Bool :=
  (List.range 1023).any fun i => present (pdeAt s'.mem d i) && deep (kernelEndPage bssEnd) s i &&
    frameOf (pdeAt s'.mem d i) == f

/-- The kinds of the frames after a clone whose directory belongs to `k`. -/
def cloneOwn (own : Nat → Kind) (bssEnd : Nat) (s : Vm) (d : Nat) (log : List (Use × Nat)) (s' : Vm)
    (k f : Nat) : Kind :=
  if f ∈ d :: log.map Prod.snd then
    if f = d then .dir k else if newTable bssEnd s d s' f then .table else .page
  else own f

section CloneOwn

variable {log : List (Use × Nat)} {k f : Nat}

theorem newTable_iff : newTable bssEnd s d s' f = true ↔ ∃ i < 1023,
    present (pdeAt s'.mem d i) = true ∧ deep (kernelEndPage bssEnd) s i = true ∧
      frameOf (pdeAt s'.mem d i) = f := by
  simp [newTable, List.any_eq_true, and_assoc]

theorem Cloned.popped_free (h : Laid own s) (hc : Cloned bssEnd s d log s')
    (hf : f ∈ d :: log.map Prod.snd) : own f = .free := by
  refine h.free_of_mem ?_
  rw [hc.pops]
  exact List.mem_append_left _ hf

theorem Cloned.nodup (h : Laid own s) (hc : Cloned bssEnd s d log s') :
    d ∉ log.map Prod.snd ∧ (log.map Prod.snd).Nodup := by
  have hnd := h.stacked.nodup
  rw [hc.pops, List.nodup_append] at hnd
  exact List.nodup_cons.mp hnd.1

/-- Frames in use keep their kind. -/
theorem Cloned.keep (h : Laid own s) (hc : Cloned bssEnd s d log s') (hf : own f ≠ .free) :
    cloneOwn own bssEnd s d log s' k f = own f :=
  if_neg fun hmem => hf (hc.popped_free h hmem)

theorem Cloned.own_dir : cloneOwn own bssEnd s d log s' k d = .dir k := by
  simp [cloneOwn]

theorem Cloned.own_table (h : Laid own s) (hc : Cloned bssEnd s d log s')
    (hf : f ∈ log.map Prod.snd) (hnew : newTable bssEnd s d s' f = true) :
    cloneOwn own bssEnd s d log s' k f = .table := by
  have hfd : f ≠ d := fun heq => (hc.nodup h).1 (heq ▸ hf)
  rw [cloneOwn, if_pos (List.mem_cons_of_mem _ hf), if_neg hfd, if_pos hnew]

/-- A frame popped for a page is not one popped for a table. -/
theorem Cloned.own_page (h : Laid own s) (hc : Cloned bssEnd s d log s') {i j : Nat}
    (hf : (Use.page i j, f) ∈ log) : cloneOwn own bssEnd s d log s' k f = .page := by
  have hmem : f ∈ log.map Prod.snd := List.mem_map_of_mem (f := Prod.snd) hf
  obtain ⟨hnot, hnd⟩ := hc.nodup h
  have hfd : f ≠ d := fun heq => hnot (heq ▸ hmem)
  have hold : ¬ newTable bssEnd s d s' f = true := by
    rw [newTable_iff]
    rintro ⟨i', hi', hp, hdeep, hframe⟩
    rcases hc.entry h.cloneable hi' hp with ⟨hshallow, -⟩ | ⟨-, htable, -⟩
    · rw [hdeep] at hshallow
      cases hshallow
    · rw [hframe] at htable
      have hsame := List.inj_on_of_nodup_map hnd hf htable rfl
      simp at hsame
  rw [cloneOwn, if_pos (List.mem_cons_of_mem _ hmem), if_neg hfd, if_neg hold]

theorem Cloned.dir_cases {n : Nat} (hf : cloneOwn own bssEnd s d log s' k f = .dir n) :
    f = d ∨ own f = .dir n := by
  by_cases hfd : f = d
  · exact .inl hfd
  · rw [cloneOwn, if_neg hfd] at hf
    split at hf
    · split at hf <;> cases hf
    · exact .inr hf

theorem Cloned.table_cases (hf : cloneOwn own bssEnd s d log s' k f = .table) :
    newTable bssEnd s d s' f = true ∨ own f = .table := by
  unfold cloneOwn at hf
  split at hf
  · split at hf
    · cases hf
    · split at hf
      · next hnew => exact .inl hnew
      · cases hf
  · exact .inr hf

theorem Cloned.stacked (h : Laid own s) (hc : Cloned bssEnd s d log s') :
    Stacked (cloneOwn own bssEnd s d log s' k) s'.free := by
  have hstacked := h.stacked
  rw [hc.pops] at hstacked
  refine hstacked.pops fun f _ => ?_
  split
  · simp
  · split <;> simp

/-- Words of frames in use do not change. -/
theorem Cloned.word (h : Laid own s) (hc : Cloned bssEnd s d log s') {g : Nat}
    (hnone : own g ≠ .none) (hfree : own g ≠ .free) {j : Nat} (hj : j < 1024) :
    load32 s'.mem (g + 4 * j) = load32 s.mem (g + 4 * j) :=
  hc.work.mem.word h.cloneable.frame_aligned (h.isFrame hnone).1
    (fun hmem => hfree (h.free_of_mem hmem)) (by omega)

/-- Every present entry of the clone refers to a table. -/
theorem Cloned.entry_table (h : Laid own s) (hc : Cloned bssEnd s d log s') {i : Nat} (hi₀ : 1 ≤ i)
    (hi : i < 1023) (hp : present (pdeAt s'.mem d i) = true) :
    cloneOwn own bssEnd s d log s' k (frameOf (pdeAt s'.mem d i)) = .table := by
  obtain ⟨n, hn⟩ := h.cr3
  rcases hc.entry h.cloneable hi hp with ⟨-, hpde, hsame⟩ | ⟨hdeep, htable, -⟩
  · have hold := h.entries _ n hn i hi₀ hi hpde
    rw [hsame, hc.keep h (by simp [hold]), hold]
  · exact hc.own_table h (List.mem_map_of_mem (f := Prod.snd) htable)
      (newTable_iff.mpr ⟨i, hi, hp, hdeep, rfl⟩)

/-- Two entries of the clone do not refer to the same table. -/
theorem Cloned.entry_distinct (h : Laid own s) (hc : Cloned bssEnd s d log s') {i i' : Nat}
    (hi₀ : 1 ≤ i) (hi : i < 1023) (hi₀' : 1 ≤ i') (hi' : i' < 1023)
    (hp : present (pdeAt s'.mem d i) = true) (hp' : present (pdeAt s'.mem d i') = true)
    (heq : frameOf (pdeAt s'.mem d i) = frameOf (pdeAt s'.mem d i')) : i = i' := by
  obtain ⟨n, hn⟩ := h.cr3
  have hmixed : ∀ i, 1 ≤ i → i < 1023 → present (pdeAt s.mem s.cr3 i) = true →
      frameOf (pdeAt s.mem s.cr3 i) ∉ d :: log.map Prod.snd := by
    intro i hi₀ hi hpde hmem
    have hfree := hc.popped_free h hmem
    rw [h.entries _ n hn i hi₀ hi hpde] at hfree
    cases hfree
  rcases hc.entry h.cloneable hi hp with ⟨-, hpde, hsame⟩ | ⟨-, htable, -⟩
  · rcases hc.entry h.cloneable hi' hp' with ⟨-, hpde', hsame'⟩ | ⟨-, htable', -⟩
    · rw [hsame, hsame'] at heq
      exact h.distinct _ n hn i i' hi₀ hi hi₀' hi' hpde hpde' heq
    · rw [← heq, hsame] at htable'
      exact absurd (List.mem_cons_of_mem _ (List.mem_map_of_mem (f := Prod.snd) htable'))
        (hmixed i hi₀ hi hpde)
  · rcases hc.entry h.cloneable hi' hp' with ⟨-, hpde', hsame'⟩ | ⟨-, htable', -⟩
    · rw [heq, hsame'] at htable
      exact absurd (List.mem_cons_of_mem _ (List.mem_map_of_mem (f := Prod.snd) htable))
        (hmixed i' hi₀' hi' hpde')
    · have hsame := List.inj_on_of_nodup_map (hc.nodup h).2 htable htable' heq
      simpa using congrArg Prod.fst hsame

/-- A new table refers to pages. -/
theorem Cloned.target_page (h : Laid own s) (hc : Cloned bssEnd s d log s')
    (hnew : newTable bssEnd s d s' f = true) {j : Nat} (hj : j < 1024)
    (hp : present (load32 s'.mem (f + 4 * j)) = true) :
    cloneOwn own bssEnd s d log s' k (frameOf (load32 s'.mem (f + 4 * j))) = .page := by
  obtain ⟨n, hn⟩ := h.cr3
  obtain ⟨i, hi, hpde, hdeep, rfl⟩ := newTable_iff.mp hnew
  have hi₀ : 1 ≤ i := by
    by_contra hlt
    rw [show i = 0 by omega, h.not_deep] at hdeep
    cases hdeep
  rcases hc.entry h.cloneable hi hpde with ⟨hshallow, -⟩ | ⟨-, -, hptes⟩
  · rw [hdeep] at hshallow
    cases hshallow
  · have hdone := hptes j hj
    have hold : present (pdeAt s.mem s.cr3 i) = true := by
      simp only [deep, Bool.and_eq_true] at hdeep
      exact hdeep.1
    cases hpte : present (pteAt s.mem s.cr3 i j) with
    | false =>
        rw [hdone.absent hpte] at hp
        cases hp
    | true =>
        cases hcopies : copies (keepOf (kernelEndPage bssEnd) i) s i j with
        | false =>
            have hpage : own (frameOf (pteAt s.mem s.cr3 i j)) = .page :=
              h.targets _ (h.entries _ n hn i hi₀ hi hold) j hj hpte
            rw [hdone.shared hpte hcopies, hc.keep h (by simp [hpage]), hpage]
        | true =>
            obtain ⟨g, hg, hword, -⟩ := hdone.copied hcopies
            have hgframe := h.isFrame (f := g) (by
              rw [hc.popped_free h (List.mem_cons_of_mem _ (List.mem_map_of_mem (f := Prod.snd) hg))]
              simp)
            rw [hword, frameOf_or hgframe.1 hgframe.lt (flagsOf_lt _)]
            exact hc.own_page h hg

end CloneOwn

/-- The address spaces after a clone, whose directory belongs to `k`. -/
theorem Laid.clone (h : Laid own s) (hrun : pagingCloneDirectory bssEnd s = some (d, s')) (k : Nat) :
    ∃ own', Laid own' s' ∧ own d = .free ∧ own' d = .dir k ∧ s'.cr3 = s.cr3 ∧
      ∀ g, own g ≠ .free → own' g = own g := by
  obtain ⟨log, hc⟩ := Cloned.of_some h.cloneable hrun
  obtain ⟨n, hn⟩ := h.cr3
  have hkeep : ∀ g, own g ≠ .free → cloneOwn own bssEnd s d log s' k g = own g :=
    fun g hg => hc.keep h hg
  refine ⟨cloneOwn own bssEnd s d log s' k, ?_, hc.popped_free h (by simp), Cloned.own_dir,
    hc.work.cr3, hkeep⟩
  have hdir : ∀ g m, own g = .dir m → ∀ i < 1024, pdeAt s'.mem g i = pdeAt s.mem g i :=
    fun g m hg i hi => hc.word h (by simp [hg]) (by simp [hg]) hi
  refine ⟨hc.stacked h, ?_, ?_, ?_, ?_, ?_, ?_, ?_, n, ?_⟩
  · rw [hkeep _ (by simp [h.id]), h.id]
  · exact fun j hj => (hc.word h (by simp [h.id]) (by simp [h.id]) hj).trans (h.identity j hj)
  · intro g m hg
    rcases Cloned.dir_cases hg with rfl | hold
    · rw [← h.first _ n hn]
      refine (hc.done 0 (by omega)).shared ?_ h.not_deep
      rw [h.first _ n hn, present_or h.core.table.1 (by decide)]
      rfl
    · rw [hdir g m hold 0 (by omega), h.first g m hold]
  · intro g m hg
    rcases Cloned.dir_cases hg with rfl | hold
    · exact hc.self
    · rw [hdir g m hold 1023 (by omega), h.self g m hold]
  · intro g m hg i hi₀ hi hp
    rcases Cloned.dir_cases hg with rfl | hold
    · exact hc.entry_table h hi₀ hi hp
    · rw [hdir g m hold i (by omega)] at hp ⊢
      have htable := h.entries g m hold i hi₀ hi hp
      rw [hkeep _ (by simp [htable]), htable]
  · intro g m hg i i' hi₀ hi hi₀' hi' hp hp' heq
    rcases Cloned.dir_cases hg with rfl | hold
    · exact hc.entry_distinct h hi₀ hi hi₀' hi' hp hp' heq
    · rw [hdir g m hold i (by omega)] at hp heq
      rw [hdir g m hold i' (by omega)] at hp' heq
      exact h.distinct g m hold i i' hi₀ hi hi₀' hi' hp hp' heq
  · intro t ht j hj hp
    rcases Cloned.table_cases ht with hnew | hold
    · exact hc.target_page h hnew hj hp
    · have hword := hc.word h (g := t) (by simp [hold]) (by simp [hold]) hj
      rw [hword] at hp ⊢
      have hpage := h.targets t hold j hj hp
      rw [hkeep _ (by simp [hpage]), hpage]
  · rw [hc.work.cr3, hkeep _ (by simp [hn]), hn]

end Family

end SRos.Paging
