import SRos.Paging.Install

/-!
# Directories that pages are mapped in

What `paging_map_page` relies on and keeps: a directory that maps itself and lies at its own
address, and free frames that no entry of it refers to.
-/

namespace SRos.Paging

open Bytes

/-- A directory to map pages in, and the free frames for its tables. -/
structure Regular (s : Vm) : Prop extends SelfMapped s where
  nodup : s.free.Nodup
  unused : ∀ f ∈ s.free, frameOf f = f ∧ Unused s f

/-- An access uses the frame that the walk ends in. -/
theorem translate_walk (s : Vm) (v : Nat) :
    s.translate v = (walk s v).map fun (f, _, _) => f + (v &&& 0xFFF) := by
  unfold Vm.translate walk
  dsimp only
  split
  · split <;> rfl
  · rfl

/-- The flags of a directory entry once a page with these flags has been mapped through it. -/
def tableFlags (flags : Nat) (s : Vm) (i : Nat) : Nat :=
  if present (pdeAt s.mem s.cr3 i) then flagsOf (pdeAt s.mem s.cr3 i) else mapFlags flags

section Step

variable {s s' : Vm} {v p flags : Nat}

/-- A call that returns had a frame to take, if it needed one. -/
theorem Regular.room (h : Regular s) (hv : v < 0xFFC00000)
    (hs : pagingMapPage v p flags s = some s') :
    s.free ≠ [] ∨ present (pdeAt s.mem s.cr3 (v / 2 ^ 22)) = true := by
  cases hpde : present (pdeAt s.mem s.cr3 (v / 2 ^ 22)) with
  | true => exact .inr rfl
  | false =>
      left
      intro hfree
      rw [vaddr_eq v, h.mapPage_stuck (by omega) (by omega) (by omega) hpde hfree] at hs
      cases hs

theorem Regular.top (h : Regular s) : ∀ f ∈ s.free.head?, Unused s (frameOf f) := by
  intro f hf
  obtain ⟨hframe, hunused⟩ := h.unused f (List.mem_of_mem_head? hf)
  rwa [hframe]

theorem Regular.installed (h : Regular s) (hv : v < 0xFFC00000)
    (hs : pagingMapPage v p flags s = some s') :
    Installed s (s.free.headD 0) (v / 2 ^ 22) (v / 2 ^ 12 % 1024) p flags s' := by
  obtain ⟨s'', hs'', hinstalled⟩ := @SelfMapped.installed s (v / 2 ^ 22) (v / 2 ^ 12 % 1024)
    (v % 4096) p flags h.toSelfMapped (by omega) (by omega) (by omega) h.top (h.room hv hs)
  rw [← vaddr_eq, hs] at hs''
  cases hs''
  exact hinstalled

/-- The entries after a call: the old ones, and the new one for a frame of the allocator. -/
theorem Regular.pde (h : Regular s) (hv : v < 0xFFC00000)
    (hs : pagingMapPage v p flags s = some s') {k : Nat} (hk : k < 1024)
    (hpresent : present (pdeAt s'.mem s.cr3 k) = true) :
    (present (pdeAt s.mem s.cr3 k) = true ∧ pdeAt s'.mem s.cr3 k = pdeAt s.mem s.cr3 k) ∨
      (k = v / 2 ^ 22 ∧ present (pdeAt s.mem s.cr3 k) = false ∧
        frameOf (pdeAt s'.mem s.cr3 k) = s.free.headD 0 ∧ s.free.headD 0 ∈ s.free) := by
  have hinstalled := h.installed hv hs
  by_cases hki : k = v / 2 ^ 22
  · subst hki
    cases hpde : present (pdeAt s.mem s.cr3 (v / 2 ^ 22)) with
    | true =>
        left
        rw [hinstalled.pde, if_pos hpde]
        exact ⟨rfl, rfl⟩
    | false =>
        right
        have hmem : s.free.headD 0 ∈ s.free := by
          cases hfree : s.free with
          | nil =>
              have hroom := h.room hv hs
              rw [hpde, hfree] at hroom
              simp at hroom
          | cons t fs => simp
        have hframe := (isEntry_map (s.free.headD 0) flags).frame
        rw [(h.unused _ hmem).1] at hframe
        refine ⟨rfl, rfl, ?_, hmem⟩
        rw [hinstalled.pde, hpde, (h.unused _ hmem).1]
        exact hframe
  · left
    rw [hinstalled.pde_other k hk hki] at hpresent ⊢
    exact ⟨hpresent, rfl⟩

/-- The walks after a call. -/
theorem Regular.walk_mapPage (h : Regular s) (hv : v < 0xFFC00000)
    (hs : pagingMapPage v p flags s = some s') {w : Nat} (hw : w < 0xFFC00000) :
    walk s' w = if w / 4096 = v / 4096 then
      some (frameOf p, mapFlags flags, tableFlags flags s (v / 2 ^ 22)) else walk s w := by
  have hinstalled := h.installed hv hs
  split
  · next hpage =>
      have hwalk := @Installed.walk_page _ _ _ (w % 4096) _ _ _ _ hinstalled h.dir (by omega)
        (by omega)
      rwa [show v / 2 ^ 22 * 2 ^ 22 + v / 2 ^ 12 % 1024 * 2 ^ 12 + w % 4096 = w by omega,
        ← tableFlags] at hwalk
  · next hpage =>
      rw [vaddr_eq w]
      exact hinstalled.walk_other h.dir (by omega) (by omega) (by omega) (by omega)

/-- The first page that is mapped through a directory entry decides on its flags. -/
theorem Regular.tableFlags_mapPage (h : Regular s) (hv : v < 0xFFC00000)
    (hs : pagingMapPage v p flags s = some s') {i : Nat} (hi : i < 1023) :
    tableFlags flags s' i = tableFlags flags s i := by
  have hinstalled := h.installed hv hs
  unfold tableFlags
  rw [hinstalled.cr3]
  by_cases hiv : i = v / 2 ^ 22
  · rw [hiv, hinstalled.pde]
    have hentry := isEntry_map (s.free.headD 0) flags
    by_cases hpde : present (pdeAt s.mem s.cr3 (v / 2 ^ 22)) = true
    · simp only [if_pos hpde]
    · simp only [if_neg hpde, if_pos hentry.present, hentry.flags]
  · rw [hinstalled.pde_other i (by omega) hiv]

/-- The directory stays at its own address if the call leaves it there. -/
theorem Regular.ident_step (h : Regular s) (hlow : s.cr3 < 0xFFC00000) (hv : v < 0xFFC00000)
    (hkeep : v / 4096 = s.cr3 / 4096 → frameOf p = s.cr3)
    (hs : pagingMapPage v p flags s = some s') : Ident s' s.cr3 := by
  intro o ho
  have hcr3 := h.aligned.1
  have hident := h.ident o ho
  rw [translate_walk] at hident ⊢
  rw [h.walk_mapPage hv hs (by omega)]
  split
  · next hpage =>
      have hoffset : (s.cr3 + o) &&& 0xFFF = o := by
        have hmask : (s.cr3 + o) &&& 0xFFF = (s.cr3 + o) % 4096 :=
          Nat.and_two_pow_sub_one_eq_mod _ 12
        omega
      rw [Option.map_some, hkeep (by omega), hoffset]
  · exact hident

theorem Regular.distinct_step (h : Regular s) (hv : v < 0xFFC00000)
    (hs : pagingMapPage v p flags s = some s') :
    ∀ i < 1024, ∀ k < 1024, present (pdeAt s'.mem s.cr3 i) = true →
      present (pdeAt s'.mem s.cr3 k) = true →
      frameOf (pdeAt s'.mem s.cr3 i) = frameOf (pdeAt s'.mem s.cr3 k) → i = k := by
  intro i hi k hk hpi hpk heq
  rcases h.pde hv hs hi hpi with ⟨hold, hsame⟩ | ⟨hnew, -, hframe, hmem⟩ <;>
    rcases h.pde hv hs hk hpk with ⟨hold', hsame'⟩ | ⟨hnew', -, hframe', hmem'⟩
  · rw [hsame, hsame'] at heq
    exact h.distinct i hi k hk hold hold' heq
  · rw [hsame, hframe'] at heq
    exact absurd heq ((h.unused _ hmem').2 i hi hold)
  · rw [hsame', hframe] at heq
    exact absurd heq.symm ((h.unused _ hmem).2 k hk hold')
  · rw [hnew, hnew']

/-- A frame that is left in the allocator is still in no entry. -/
theorem Regular.unused_step (h : Regular s) (hv : v < 0xFFC00000)
    (hs : pagingMapPage v p flags s = some s') :
    s'.free.Nodup ∧ ∀ f ∈ s'.free, frameOf f = f ∧ Unused s' f := by
  have hinstalled := h.installed hv hs
  have hsub : s'.free.Sublist s.free := by
    rw [hinstalled.free]
    split
    · exact List.Sublist.refl _
    · exact List.tail_sublist _
  refine ⟨h.nodup.sublist hsub, ?_⟩
  intro f hf
  obtain ⟨hframe, hunused⟩ := h.unused f (hsub.subset hf)
  refine ⟨hframe, ?_⟩
  intro k hk hpresent
  rw [hinstalled.cr3] at hpresent ⊢
  rcases h.pde hv hs hk hpresent with ⟨hold, hsame⟩ | ⟨hnew, habsent, hentry, -⟩
  · rw [hsame]
    exact hunused k hk hold
  · rw [hentry]
    subst hnew
    rw [hinstalled.free, habsent] at hf
    cases hfree : s.free with
    | nil => simp [hfree] at hf
    | cons t fs =>
        have hnodup := h.nodup
        rw [hfree] at hf hnodup
        rintro rfl
        exact (List.nodup_cons.mp hnodup).1 (by simpa using hf)

/-- A call that leaves the directory at its own address keeps all of it. -/
theorem Regular.step (h : Regular s) (hlow : s.cr3 < 0xFFC00000) (hv : v < 0xFFC00000)
    (hkeep : v / 4096 = s.cr3 / 4096 → frameOf p = s.cr3)
    (hs : pagingMapPage v p flags s = some s') : Regular s' := by
  have hinstalled := h.installed hv hs
  have hcr3 := hinstalled.cr3
  have hself := h.self
  rw [← hinstalled.pde_other 1023 (by omega) (by omega)] at hself
  obtain ⟨hnodup, hunused⟩ := h.unused_step hv hs
  refine ⟨⟨?_, ?_, ?_, ?_⟩, hnodup, hunused⟩
  · rw [hcr3]
    exact h.dir
  · rw [hcr3]
    exact hself
  · rw [hcr3]
    exact h.distinct_step hv hs
  · rw [hcr3]
    exact h.ident_step hlow hv hkeep hs

/-- A call writes no frame but the directory, its tables and a free one. -/
theorem Regular.mapPage_mem (h : Regular s) (hv : v < 0xFFC00000)
    (hs : pagingMapPage v p flags s = some s') {g o : Nat} (hg : g % 4096 = 0) (hfree : g ∉ s.free)
    (hunused : Unused s g) (ho : o < 4096) : s'.mem (g + o) = s.mem (g + o) := by
  rw [vaddr_eq v] at hs
  cases hpde : present (pdeAt s.mem s.cr3 (v / 2 ^ 22)) with
  | true =>
      rw [h.mapPage_present (by omega) (by omega) (by omega) hpde] at hs
      obtain rfl := Option.some.inj hs
      have hne := hunused _ (by omega) hpde
      have haligned := (frameOf_frame (pdeAt s.mem s.cr3 (v / 2 ^ 22))).1
      exact store32_of_outside (by omega)
  | false =>
      cases hcons : s.free with
      | nil =>
          rw [h.mapPage_stuck (by omega) (by omega) (by omega) hpde hcons] at hs
          cases hs
      | cons t fs =>
          obtain ⟨hframe, htop⟩ := h.unused t (by simp [hcons])
          obtain ⟨m, hmap, hagree, -⟩ := @SelfMapped.mapPage_absent s (v / 2 ^ 22)
            (v / 2 ^ 12 % 1024) (v % 4096) t p flags fs h.toSelfMapped (by omega) (by omega)
            (by omega) hpde hcons (by rwa [hframe])
          rw [hmap] at hs
          obtain rfl := Option.some.inj hs
          rw [hframe] at hagree
          have ht : t % 4096 = 0 := by
            rw [← hframe]
            exact (frameOf_frame t).1
          refine hagree.byte (by simp [h.aligned.1, ht]) hg ?_ ho
          simp only [List.mem_cons, List.not_mem_nil, or_false, not_or]
          exact ⟨(h.dir_ne hunused).symm, fun heq => hfree (by simp [hcons, heq])⟩

/-- A frame that is in no entry and not free stays so. -/
theorem Regular.unused_kept (h : Regular s) (hv : v < 0xFFC00000)
    (hs : pagingMapPage v p flags s = some s') {f : Nat} (hfree : f ∉ s.free) (hf : Unused s f) :
    f ∉ s'.free ∧ Unused s' f := by
  have hinstalled := h.installed hv hs
  constructor
  · intro hmem
    rw [hinstalled.free] at hmem
    split at hmem
    · exact hfree hmem
    · exact hfree (List.mem_of_mem_tail hmem)
  · intro k hk hpresent
    rw [hinstalled.cr3] at hpresent ⊢
    rcases h.pde hv hs hk hpresent with ⟨hold, hsame⟩ | ⟨-, -, hframe, hmem⟩
    · rw [hsame]
      exact hf k hk hold
    · rw [hframe]
      rintro rfl
      exact hfree hmem

/-- The top of the allocator is taken. -/
theorem Regular.pop {f : Nat} {fs : List Nat} (h : Regular s) (hfree : s.free = f :: fs) :
    Regular { s with free := fs } ∧ f ∉ fs := by
  have hnodup := h.nodup
  rw [hfree] at hnodup
  exact ⟨⟨⟨h.dir, h.self, h.distinct, h.ident⟩, (List.nodup_cons.mp hnodup).2,
    fun g hg => h.unused g (by simp [hfree, hg])⟩, (List.nodup_cons.mp hnodup).1⟩

/-- `paging_alloc_page` for a page that has a table. -/
theorem Regular.allocPage_maps (h : Regular s) (hv : v < 0xFFC00000)
    (hpde : present (pdeAt s.mem s.cr3 (v / 2 ^ 22)) = true) (hfree : s.free ≠ []) :
    ∃ s', pagingAllocPage v s = some s' ∧ (s'.translate v).isSome = true := by
  obtain ⟨f, fs, hcons⟩ := List.exists_cons_of_ne_nil hfree
  obtain ⟨hpop, -⟩ := h.pop hcons
  obtain ⟨s', hs', -⟩ := @SelfMapped.installed { s with free := fs } (v / 2 ^ 22)
    (v / 2 ^ 12 % 1024) (v % 4096) f 0x07 hpop.toSelfMapped (by omega) (by omega) (by omega)
    hpop.top (.inr hpde)
  rw [← vaddr_eq] at hs'
  refine ⟨s', ?_, ?_⟩
  · unfold pagingAllocPage pfaAlloc
    rw [hcons]
    exact hs'
  · rw [translate_walk, hpop.walk_mapPage hv hs' hv, if_pos rfl]
    rfl

end Step

/-! ## Pages with a frame of their own -/

/-- The frames for the next pages of a directory entry, without the one for a missing table. -/
def pageFrames (s : Vm) (i : Nat) : List Nat :=
  if present (pdeAt s.mem s.cr3 i) then s.free else s.free.eraseIdx 1

/-- The page of `v` is mapped to a frame that was free. -/
structure FreshPage (s : Vm) (v flags f : Nat) (s' : Vm) : Prop where
  regular : Regular s'
  cr3 : s'.cr3 = s.cr3
  frames : pageFrames s (v / 2 ^ 22) = f :: s'.free
  table : present (pdeAt s'.mem s'.cr3 (v / 2 ^ 22)) = true
  frame : frameOf f = f
  unused : Unused s' f
  fresh : f ∈ s.free ∧ f ∉ s'.free
  walk : ∀ w < 0xFFC00000, walk s' w = if w / 4096 = v / 4096 then
    some (f, mapFlags flags, tableFlags flags s (v / 2 ^ 22)) else walk s w
  tables : ∀ i < 1023, tableFlags flags s' i = tableFlags flags s i
  others : ∀ g, g ∉ s.free → Unused s g → g ∉ s'.free ∧ Unused s' g

section Fresh

variable {s s₁ s' : Vm} {v flags f : Nat}

theorem pageFrames_of_table (h : present (pdeAt s.mem s.cr3 i) = true) : pageFrames s i = s.free :=
  if_pos h

/-- `pfa_alloc` and `paging_map_page` for the frame that it returns. -/
theorem Regular.freshPage (h : Regular s) (hcr3 : s.cr3 < 0xFFC00000) (hv : v < 0xFFC00000)
    (hpage : v / 4096 ≠ s.cr3 / 4096) (halloc : pfaAlloc s = some (f, s₁))
    (hs : pagingMapPage v f flags s₁ = some s') : FreshPage s v flags f s' := by
  obtain ⟨fs, hfree, rfl⟩ := pfaAlloc_some halloc
  obtain ⟨hpop, hnot⟩ := h.pop hfree
  obtain ⟨hframe, hunused⟩ := h.unused f (by simp [hfree])
  have hinstalled := hpop.installed hv hs
  have hstep := hpop.step hcr3 hv (fun heq => absurd heq hpage) hs
  obtain ⟨hout, hunused'⟩ := hpop.unused_kept hv hs hnot hunused
  refine ⟨hstep, hinstalled.cr3, ?_, ?_, hframe, hunused', ⟨by simp [hfree], hout⟩, ?_,
    fun i => hpop.tableFlags_mapPage hv hs, ?_⟩
  · rw [hinstalled.free, pageFrames, hfree]
    split
    · rfl
    · cases fs <;> rfl
  · rw [hinstalled.cr3, hinstalled.pde]
    split
    · assumption
    · exact (isEntry_map _ flags).present
  · intro w hw
    rw [hpop.walk_mapPage hv hs hw, hframe]
    rfl
  · exact fun g' hg' =>
      hpop.unused_kept hv hs fun hmem => hg' (by simp [hfree, show g' ∈ fs from hmem])

theorem FreshPage.subset (h : FreshPage s v flags f s') : ∀ g ∈ s'.free, g ∈ s.free := by
  intro g hg
  have hmem : g ∈ pageFrames s (v / 2 ^ 22) := by
    rw [h.frames]
    exact List.mem_cons_of_mem _ hg
  unfold pageFrames at hmem
  split at hmem
  · exact hmem
  · exact List.mem_of_mem_eraseIdx hmem

/-- Two free frames are enough. -/
theorem Regular.exists_freshPage (h : Regular s) (hv : v < 0xFFC00000) (flags : Nat)
    (hlen : 1 < s.free.length) :
    ∃ f s₁ s', pfaAlloc s = some (f, s₁) ∧ pagingMapPage v f flags s₁ = some s' := by
  cases hfree : s.free with
  | nil => simp [hfree] at hlen
  | cons f fs =>
      have hroom : fs ≠ [] := by
        rintro rfl
        simp [hfree] at hlen
      obtain ⟨hpop, -⟩ := h.pop hfree
      obtain ⟨s', hs', -⟩ := @SelfMapped.installed { s with free := fs } (v / 2 ^ 22)
        (v / 2 ^ 12 % 1024) (v % 4096) f flags hpop.toSelfMapped (by omega) (by omega) (by omega)
        hpop.top (.inl hroom)
      rw [← vaddr_eq] at hs'
      refine ⟨f, _, s', ?_, hs'⟩
      rw [pfaAlloc, hfree]

end Fresh

end SRos.Paging
