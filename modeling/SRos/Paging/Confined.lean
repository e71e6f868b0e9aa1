import SRos.Paging.Private

/-!
# What an address space may change

An operation of the loaded address space only writes frames of its own and frames that were free.
Directories that share nothing with it then show the same bytes in ring 3 as before.
-/

namespace SRos.Paging

open Bytes

/-- The directories in `D` are private in a laid-out memory, and one of them is loaded. -/
structure Spaces (own : Nat → Kind) (D : Nat → Prop) (s : Vm) : Prop where
  laid : Laid own s
  dirs : ∀ d, D d → ∃ k, own d = .dir k
  apart : Private D s.mem
  loaded : D s.cr3

section Spaces

variable {own own' own'' : Nat → Kind} {D : Nat → Prop} {s s' s'' : Vm} {d d' f i j o v : Nat}
  {write : Bool}

namespace Spaces

theorem table_kind (h : Spaces own D s) (hd : D d) (htable : HasTable s.mem d i) :
    own (frameOf (pdeAt s.mem d i)) = .table := by
  obtain ⟨k, hk⟩ := h.dirs d hd
  exact h.laid.entries d k hk i htable.1 htable.2.1 htable.2.2

theorem page_kind (h : Spaces own D s) (hd : D d) (hpage : HasPage s.mem d i j) :
    own (frameOf (pteAt s.mem d i j)) = .page :=
  h.laid.targets _ (h.table_kind hd hpage.1) j hpage.2.1 hpage.2.2

/-- The frames of an address space are in use. -/
theorem used (h : Spaces own D s) (hd : D d) (hf : InSpace s.mem d f) :
    own f ≠ .none ∧ own f ≠ .free := by
  cases hf with
  | dir =>
      obtain ⟨k, hk⟩ := h.dirs d hd
      simp [hk]
  | table htable => simp [h.table_kind hd htable]
  | page hpage => simp [h.page_kind hd hpage]

/-- Two address spaces have no frame in common. -/
theorem disjoint (h : Spaces own D s) (hd : D d) (hd' : D d') (hne : d ≠ d')
    (hf : InSpace s.mem d f) (hf' : InSpace s.mem d' f) : False := by
  obtain ⟨k, hk⟩ := h.dirs d hd
  obtain ⟨k', hk'⟩ := h.dirs d' hd'
  generalize hg : f = g at hf'
  cases hf with
  | dir =>
      cases hf' with
      | dir => exact hne hg
      | table htable' => exact Laid.ne_of_own hk (h.table_kind hd' htable') (by simp) hg
      | page hpage' => exact Laid.ne_of_own hk (h.page_kind hd' hpage') (by simp) hg
  | table htable =>
      have hkind := h.table_kind hd htable
      cases hf' with
      | dir => exact Laid.ne_of_own hkind hk' (by simp) hg
      | table htable' => exact hne (h.apart.tables hd hd' htable htable' hg).1
      | page hpage' => exact Laid.ne_of_own hkind (h.page_kind hd' hpage') (by simp) hg
  | page hpage =>
      have hkind := h.page_kind hd hpage
      cases hf' with
      | dir => exact Laid.ne_of_own hkind hk' (by simp) hg
      | table htable' => exact Laid.ne_of_own hkind (h.table_kind hd' htable') (by simp) hg
      | page hpage' => exact hne (h.apart.pages hd hd' hpage hpage' hg).1

/-- In ring 3 exactly the pages of the user space can be reached, for reading and for writing. -/
theorem userAddr_eq (h : Spaces own D s) (hd : D d) (hi : i < 1024) (hj : j < 1024)
    (ho : o < 4096) :
    userAddr s.mem d write (vaddr i j o) =
      if HasPage s.mem d i j then some (frameOf (pteAt s.mem d i j) + o) else none := by
  obtain ⟨k, hk⟩ := h.dirs d hd
  obtain ⟨hpd, hpt, hoff⟩ := @vaddr_split i j o hj ho
  unfold userAddr vaddr
  dsimp only
  rw [hpd, hpt, hoff]
  by_cases htable : HasTable s.mem d i
  · rw [allows_user (h.apart.pdes hd htable), Bool.true_and]
    by_cases hp : present (pteAt s.mem d i j) = true
    · have hpage : HasPage s.mem d i j := ⟨htable, hj, hp⟩
      rw [allows_user (h.apart.ptes hd hpage), if_pos rfl, if_pos hpage]
    · rw [if_neg (fun hallows => hp (present_of_allows hallows)), if_neg fun hpage => hp hpage.2.2]
  · have hpde : allows write (pdeAt s.mem d i) = false := by
      by_cases hlow : i = 0
      · rw [hlow, h.laid.first d k hk]
        exact allows_kernel (h.laid.isFrame (by simp [h.laid.id])).1 write
      · by_cases hlast : i = 1023
        · rw [hlast, h.laid.self d k hk]
          exact allows_kernel (h.laid.isFrame (f := d) (by simp [hk])).1 write
        · refine Bool.eq_false_iff.mpr fun hallows => htable ?_
          exact ⟨by omega, by omega, present_of_allows hallows⟩
    rw [hpde, Bool.false_and, if_neg (by decide), if_neg fun hpage => htable hpage.1]

theorem exists_vaddr (hv : v < 2 ^ 32) :
    ∃ i j o, i < 1024 ∧ j < 1024 ∧ o < 4096 ∧ v = vaddr i j o :=
  ⟨v / 2 ^ 22, v / 2 ^ 12 % 1024, v % 4096, by omega, by omega, by omega, vaddr_eq v⟩

/-- A user address reaches a page of the user space. -/
theorem userAddr_some (h : Spaces own D s) (hd : D d) (hv : v < 2 ^ 32) {a : Nat}
    (ha : userAddr s.mem d write v = some a) :
    ∃ i j, HasPage s.mem d i j ∧ v = vaddr i j (v % 4096) ∧
      a = frameOf (pteAt s.mem d i j) + v % 4096 := by
  obtain ⟨i, j, o, hi, hj, ho, rfl⟩ := exists_vaddr hv
  have hmod : vaddr i j o % 4096 = o := by
    unfold vaddr
    omega
  rw [h.userAddr_eq hd hi hj ho] at ha
  split at ha
  · next hpage => exact ⟨i, j, hpage, by rw [hmod], by rw [hmod]; exact (Option.some.inj ha).symm⟩
  · cases ha

/-- Address spaces whose memory is kept show the same bytes. -/
theorem userByte_kept {D' : Nat → Prop} (h : Spaces own D s) (h' : Spaces own' D' s') (hd : D d)
    (hd' : D' d) (hkept : SpaceKept s.mem s'.mem d) (hv : v < 2 ^ 32) :
    userByte s'.mem d v = userByte s.mem d v := by
  obtain ⟨i, j, o, hi, hj, ho, rfl⟩ := exists_vaddr hv
  have hsame := hkept.entries
  unfold userByte
  rw [h'.userAddr_eq hd' hi hj ho, h.userAddr_eq hd hi hj ho]
  by_cases hpage : HasPage s.mem d i j
  · rw [if_pos hpage, if_pos (hsame.hasPage.mpr hpage), hsame.pte hpage.1 hpage.2.1, Option.map_some,
      Option.map_some, hkept _ (.page hpage) o ho]
  · rw [if_neg hpage, if_neg fun hpage' => hpage (hsame.hasPage.mp hpage')]
    rfl

end Spaces

/-- Only frames of the loaded address space and free ones have been written, and only free ones have
been added to it. -/
structure Confined (own : Nat → Kind) (s : Vm) (own' : Nat → Kind) (s' : Vm) : Prop where
  cr3 : s'.cr3 = s.cr3
  kinds : ∀ g, own g ≠ .free → own' g = own g
  mem : ∀ g, own g ≠ .none → own g ≠ .free → ¬ InSpace s.mem s.cr3 g → ∀ o < 4096,
    s'.mem (g + o) = s.mem (g + o)
  grown : ∀ g, InSpace s'.mem s.cr3 g → InSpace s.mem s.cr3 g ∨ own g = .free

namespace Confined

theorem refl (own : Nat → Kind) (s : Vm) : Confined own s own s :=
  ⟨rfl, fun _ _ => rfl, fun _ _ _ _ _ _ => rfl, fun _ => .inl⟩

theorem trans (h : Confined own s own' s') (h' : Confined own' s' own'' s'') :
    Confined own s own'' s'' where
  cr3 := h'.cr3.trans h.cr3
  kinds := by
    intro g hg
    rw [h'.kinds g (by rwa [h.kinds g hg]), h.kinds g hg]
  mem := by
    intro g hnone hfree hspace o ho
    have hkind := h.kinds g hfree
    have hspace' : ¬ InSpace s'.mem s'.cr3 g := by
      rw [h.cr3]
      intro hg
      exact (h.grown g hg).elim hspace hfree
    rw [h'.mem g (by rwa [hkind]) (by rwa [hkind]) hspace' o ho, h.mem g hnone hfree hspace o ho]
  grown := by
    intro g hg
    rw [← h.cr3] at hg
    rcases h'.grown g hg with hg | hg
    · rw [h.cr3] at hg
      exact h.grown g hg
    · refine .inr ?_
      by_contra hfree
      exact hfree (h.kinds g hfree ▸ hg)

/-- The other address spaces are as they were. -/
theorem kept (h : Confined own s own' s') (hs : Spaces own D s) (hd : D d) (hne : d ≠ s.cr3) :
    SpaceKept s.mem s'.mem d := by
  intro f hf
  obtain ⟨hnone, hfree⟩ := hs.used hd hf
  exact h.mem f hnone hfree fun hloaded => hs.disjoint hd hs.loaded hne hf hloaded

/-- The address spaces stay private if the loaded one does. -/
theorem spaces (h : Confined own s own' s') (hs : Spaces own D s) (hlaid : Laid own' s')
    (hown : Private (fun d => d = s.cr3) s'.mem) : Spaces own' D s' := by
  have hsame : ∀ d, D d → d ≠ s.cr3 → SameEntries s.mem s'.mem d :=
    fun d hd hne => (h.kept hs hd hne).entries
  -- a frame of the loaded address space is not one of another
  have hapart : ∀ {d f}, D d → d ≠ s.cr3 → InSpace s.mem d f → ¬ InSpace s'.mem s.cr3 f := by
    intro d f hd hne hf hloaded
    rcases h.grown f hloaded with hold | hfree
    · exact hs.disjoint hd hs.loaded hne hf hold
    · exact (hs.used hd hf).2 hfree
  have hother : ∀ d, D d ∧ d ≠ s.cr3 → SameEntries s.mem s'.mem d := fun d hd => hsame d hd.1 hd.2
  have hrest : Private (fun d => D d ∧ d ≠ s.cr3) s'.mem := (hs.apart.mono fun d hd => hd.1).congr hother
  refine ⟨hlaid, ?_, ?_, by rw [h.cr3]; exact hs.loaded⟩
  · intro d hd
    obtain ⟨k, hk⟩ := hs.dirs d hd
    exact ⟨k, by rw [h.kinds d (by simp [hk]), hk]⟩
  have hpart : ∀ d, D d → d = s.cr3 ∨ (D d ∧ d ≠ s.cr3) := fun d hd => by
    by_cases hd' : d = s.cr3
    · exact .inl hd'
    · exact .inr ⟨hd, hd'⟩
  refine ⟨?_, ?_, ?_, ?_, ?_⟩
  · intro d i hd htable
    exact (hpart d hd).elim (hown.pdes · htable) (hrest.pdes · htable)
  · intro d i hd htable
    exact (hpart d hd).elim (hown.filled · htable) (hrest.filled · htable)
  · intro d i j hd hpage
    exact (hpart d hd).elim (hown.ptes · hpage) (hrest.ptes · hpage)
  · intro d d' i i' hd hd' htable htable' heq
    rcases hpart d hd with hc | hc
    · rcases hpart d' hd' with hc' | hc'
      · exact hown.tables hc hc' htable htable' heq
      · have hin := (hsame d' hd' hc'.2).inSpace.mp (.table htable')
        subst hc
        exact absurd (heq ▸ .table htable) (hapart hd' hc'.2 hin)
    · rcases hpart d' hd' with hc' | hc'
      · have hin := (hsame d hd hc.2).inSpace.mp (.table htable)
        subst hc'
        exact absurd (heq.symm ▸ .table htable') (hapart hd hc.2 hin)
      · exact hrest.tables hc hc' htable htable' heq
  · intro d d' i j i' j' hd hd' hpage hpage' heq
    rcases hpart d hd with hc | hc
    · rcases hpart d' hd' with hc' | hc'
      · exact hown.pages hc hc' hpage hpage' heq
      · have hin := (hsame d' hd' hc'.2).inSpace.mp (.page hpage')
        subst hc
        exact absurd (heq ▸ .page hpage) (hapart hd' hc'.2 hin)
    · rcases hpart d' hd' with hc' | hc'
      · have hin := (hsame d hd hc.2).inSpace.mp (.page hpage)
        subst hc'
        exact absurd (heq.symm ▸ .page hpage') (hapart hd hc.2 hin)
      · exact hrest.pages hc hc' hpage hpage' heq

end Confined

end Spaces

end SRos.Paging
