import SRos.Paging.Confined

/-!
# Stores, new pages and clones

The operations on a loaded address space that is private: a byte that is stored to a user page, a
page that is mapped to a free frame, and the clone that a child gets.
-/

namespace SRos.Paging

open Bytes

section Store

variable {own : Nat → Kind} {D : Nat → Prop} {s : Vm} {d i j o v : Nat} {b : UInt8}

/-- Two bytes of user pages are the same only if they are at one address of one address space. -/
theorem Spaces.byte_inj (h : Spaces own D s) {d' i' j' o' : Nat} (hd : D d) (hd' : D d')
    (hpage : HasPage s.mem d i j) (hpage' : HasPage s.mem d' i' j') (ho : o < 4096)
    (ho' : o' < 4096)
    (heq : frameOf (pteAt s.mem d i j) + o = frameOf (pteAt s.mem d' i' j') + o') :
    d = d' ∧ vaddr i j o = vaddr i' j' o' := by
  have hframe := (h.laid.isFrame (h.used hd (.page hpage)).1).1
  have hframe' := (h.laid.isFrame (h.used hd' (.page hpage')).1).1
  obtain ⟨rfl, rfl, rfl⟩ := h.apart.pages hd hd' hpage hpage' (by omega)
  obtain rfl : o = o' := by omega
  exact ⟨rfl, rfl⟩

/-- A store to a page writes no frame of another kind. -/
theorem Spaces.store_other (h : Spaces own D s) (hd : D d) (hpage : HasPage s.mem d i j)
    (ho : o < 4096) {g o' : Nat} (hg : own g ≠ .none) (hne : g ≠ frameOf (pteAt s.mem d i j))
    (ho' : o' < 4096) :
    Function.update s.mem (frameOf (pteAt s.mem d i j) + o) b (g + o') = s.mem (g + o') := by
  have hframe := (h.laid.isFrame (h.used hd (.page hpage)).1).1
  have hframe' := (h.laid.isFrame hg).1
  exact Function.update_of_ne (by omega) _ _

theorem Spaces.store_entries (h : Spaces own D s) (hd : D d) (hpage : HasPage s.mem d i j)
    (ho : o < 4096) {d' : Nat} (hd' : D d') :
    SameEntries s.mem (Function.update s.mem (frameOf (pteAt s.mem d i j) + o) b) d' := by
  obtain ⟨k, hk⟩ := h.dirs d' hd'
  have hkind := h.page_kind hd hpage
  have hword : ∀ g, own g ≠ .none → own g ≠ .page → ∀ l < 1024,
      load32 (Function.update s.mem (frameOf (pteAt s.mem d i j) + o) b) (g + 4 * l) =
        load32 s.mem (g + 4 * l) := by
    intro g hnone hne l hl
    refine load32_frame (fun o' ho' => h.store_other hd hpage ho hnone ?_ ho') hl
    rintro rfl
    exact hne hkind
  have hpde : ∀ l < 1024, pdeAt (Function.update s.mem (frameOf (pteAt s.mem d i j) + o) b) d' l =
      pdeAt s.mem d' l := hword d' (by simp [hk]) (by simp [hk])
  refine ⟨fun hi => hpde _ hi, fun {k l} htable hl => ?_⟩
  have htkind := h.table_kind hd' htable
  have hframe : frameOf (pdeAt (Function.update s.mem (frameOf (pteAt s.mem d i j) + o) b) d' k) =
      frameOf (pdeAt s.mem d' k) := congrArg frameOf (hpde k (by have := htable.2.1; omega))
  unfold pteAt at hframe ⊢
  rw [hframe]
  exact hword _ (by simp [htkind]) (by simp [htkind]) l hl

/-- A byte is stored to a page of the loaded address space. -/
theorem Spaces.store (h : Spaces own D s) (hpage : HasPage s.mem s.cr3 i j) (ho : o < 4096) :
    Spaces own D { s with mem := Function.update s.mem (frameOf (pteAt s.mem s.cr3 i j) + o) b } ∧
      Confined own s own
        { s with mem := Function.update s.mem (frameOf (pteAt s.mem s.cr3 i j) + o) b } := by
  have hkind := h.page_kind h.loaded hpage
  have hentries := fun d hd => @Spaces.store_entries own D s s.cr3 i j o b h h.loaded hpage ho d hd
  refine ⟨⟨?_, h.dirs, h.apart.congr hentries, h.loaded⟩, rfl, fun _ _ => rfl, ?_, ?_⟩
  · apply h.laid.write
    intro f hf o' ho'
    refine h.store_other h.loaded hpage ho ?_ ?_ ho'
    · intro hnone
      simp [hnone, Kind.structural] at hf
    · rintro rfl
      simp [hkind, Kind.structural] at hf
  · intro g hnone _ hspace o' ho'
    refine h.store_other h.loaded hpage ho hnone ?_ ho'
    rintro rfl
    exact hspace (.page hpage)
  · exact fun g hg => .inl ((hentries s.cr3 h.loaded).inSpace.mp hg)

/-- The task that stores a byte finds it at its address, and all others as they were. -/
theorem Spaces.store_userByte (h : Spaces own D s) (hpage : HasPage s.mem s.cr3 i j) (ho : o < 4096)
    (hv : v < 2 ^ 32) :
    userByte (Function.update s.mem (frameOf (pteAt s.mem s.cr3 i j) + o) b) s.cr3 v =
      if v = vaddr i j o then some b else userByte s.mem s.cr3 v := by
  obtain ⟨i', j', o', hi', hj', ho', rfl⟩ := Spaces.exists_vaddr hv
  obtain ⟨hspaces, -⟩ := @Spaces.store own D s i j o b h hpage ho
  have hsame := @Spaces.store_entries own D s s.cr3 i j o b h h.loaded hpage ho s.cr3 h.loaded
  have hafter := @Spaces.userAddr_eq _ _ _ _ _ _ _ false hspaces hspaces.loaded hi' hj' ho'
  unfold userByte
  dsimp only at hafter
  rw [hafter, h.userAddr_eq h.loaded hi' hj' ho']
  by_cases hpage' : HasPage s.mem s.cr3 i' j'
  · rw [if_pos hpage', if_pos (hsame.hasPage.mpr hpage'), hsame.pte hpage'.1 hpage'.2.1,
      Option.map_some, Option.map_some]
    by_cases heq : frameOf (pteAt s.mem s.cr3 i' j') + o' = frameOf (pteAt s.mem s.cr3 i j) + o
    · rw [if_pos (h.byte_inj h.loaded h.loaded hpage' hpage ho' ho heq).2, heq, Function.update_self]
    · rw [Function.update_of_ne heq, if_neg]
      intro hvaddr
      refine heq ?_
      unfold vaddr at hvaddr
      have hj := hpage.2.1
      obtain ⟨rfl, rfl, rfl⟩ : i' = i ∧ j' = j ∧ o' = o := by omega
      rfl
  · have hne : vaddr i' j' o' ≠ vaddr i j o := by
      intro hvaddr
      unfold vaddr at hvaddr
      have hj := hpage.2.1
      obtain ⟨rfl, rfl⟩ : i' = i ∧ j' = j := by omega
      exact hpage' hpage
    rw [if_neg hpage', if_neg fun hp => hpage' (hsame.hasPage.mp hp), if_neg hne]
    rfl

end Store

section AddPage

variable {own own' : Nat → Kind} {D : Nat → Prop} {s s' : Vm} {i j o f t : Nat} {m : Nat → UInt8}

/-- The words that mapping page `j` behind entry `i` to the frame `f` writes, where the table of this
entry is at `t`. -/
structure PageAdded (own : Nat → Kind) (s : Vm) (i j f t : Nat) (m : Nat → UInt8) : Prop where
  fresh : own f = .free
  agree : AgreeOff [s.cr3, t] s.mem m
  pde : frameOf (pdeAt m s.cr3 i) = t ∧ flagsOf (pdeAt m s.cr3 i) = 0x07
  pdes : ∀ k < 1024, k ≠ i → pdeAt m s.cr3 k = pdeAt s.mem s.cr3 k
  pte : load32 m (t + 4 * j) = f ||| 0x07
  ptes : ∀ k < 1024, k ≠ j → load32 m (t + 4 * k) =
    if HasTable s.mem s.cr3 i then pteAt s.mem s.cr3 i k else 0
  table : if HasTable s.mem s.cr3 i then frameOf (pdeAt s.mem s.cr3 i) = t else own t = .free

/-- The page has a table. -/
theorem Spaces.added_present (h : Spaces own D s) (hi₀ : 1 ≤ i) (hi : i < 1023) (hj : j < 1024)
    (ho : o < 4096) (hpde : present (pdeAt s.mem s.cr3 i) = true) {fs : List Nat}
    (hfree : s.free = f :: fs) (hs : pagingAllocPage (vaddr i j o) s = some s') :
    PageAdded own s i j f (frameOf (pdeAt s.mem s.cr3 i)) s'.mem := by
  obtain ⟨k, hk⟩ := h.laid.cr3
  have hf := h.laid.free_of_mem (f := f) (by simp [hfree])
  have hframe := h.laid.isFrame (f := f) (by simp [hf])
  have htable : HasTable s.mem s.cr3 i := ⟨hi₀, hi, hpde⟩
  have hkind := h.table_kind h.loaded htable
  have htframe := h.laid.isFrame (f := frameOf (pdeAt s.mem s.cr3 i)) (by simp [hkind])
  have hpop : Laid (Function.update own f .page) { s with free := fs } := h.laid.pop hfree (.inl rfl)
  have hmap := hpop.core.mapPage_present (i := i) (j := j) (o := o) hi hj ho hframe hpde
  have hmem : s' = { s with
      free := fs, mem := store32 s.mem (frameOf (pdeAt s.mem s.cr3 i) + 4 * j) (f ||| 0x07) } := by
    simp only [pagingAllocPage, pfaAlloc, hfree, Option.bind_eq_bind, Option.bind_some] at hs
    exact Option.some.inj (hs.symm.trans hmap)
  have hflags := h.apart.pdes h.loaded htable
  have hne : s.cr3 ≠ frameOf (pdeAt s.mem s.cr3 i) := Laid.ne_of_own hk hkind (by simp)
  have haligned := h.laid.core.dir.1
  have hpdes : ∀ k < 1024, pdeAt s'.mem s.cr3 k = pdeAt s.mem s.cr3 k := by
    intro k hk
    have := htframe.1
    rw [hmem]
    exact load32_store32_ne (by omega)
  refine ⟨hf, ?_, ?_, fun k hk _ => hpdes k hk, ?_, ?_, ?_⟩
  · rw [hmem]
    exact .store32 (by simp) (by omega)
  · rw [hpdes i (by omega)]
    exact ⟨rfl, hflags⟩
  · rw [hmem]
    exact load32_store32_same _ _ (userEntry_lt hframe)
  · intro k hk hkj
    rw [if_pos htable, hmem]
    exact load32_store32_ne (by omega)
  · rw [if_pos htable]

/-- The page gets a table in the second frame of the stack. -/
theorem Spaces.added_absent (h : Spaces own D s) (hi₀ : 1 ≤ i) (hi : i < 1023) (hj : j < 1024)
    (ho : o < 4096) (hpde : present (pdeAt s.mem s.cr3 i) = false) {fs : List Nat}
    (hfree : s.free = f :: t :: fs) (hs : pagingAllocPage (vaddr i j o) s = some s') :
    PageAdded own s i j f t s'.mem := by
  obtain ⟨k, hk⟩ := h.laid.cr3
  have hf := h.laid.free_of_mem (f := f) (by simp [hfree])
  have ht := h.laid.free_of_mem (f := t) (by simp [hfree])
  have hframe := h.laid.isFrame (f := f) (by simp [hf])
  have htframe := h.laid.isFrame (f := t) (by simp [ht])
  have htable : ¬ HasTable s.mem s.cr3 i := fun htable =>
    Bool.false_ne_true (hpde.symm.trans htable.2.2)
  have hpop : Laid (Function.update own f .page) { s with free := t :: fs } :=
    h.laid.pop hfree (.inl rfl)
  obtain ⟨m, hmap, hmem, hentry, hothers, hptes⟩ := hpop.core.mapPage_absent (j := j) (o := o) hi₀ hi
    hj ho hframe htframe h.laid.idTable_ne (Laid.ne_of_own ht hk (by simp))
    (Laid.ne_of_own ht h.laid.id (by simp)) hpde rfl
  dsimp only at hmap hmem hentry hothers
  obtain rfl : s' = { s with mem := m, free := fs } := by
    simp only [pagingAllocPage, pfaAlloc, hfree, Option.bind_eq_bind, Option.bind_some] at hs
    exact Option.some.inj (hs.symm.trans hmap)
  refine ⟨hf, hmem, ?_, hothers, ?_, ?_, ?_⟩
  · rw [hentry, frameOf_or htframe.1 htframe.lt (by decide), flagsOf_or htframe.1 (by decide)]
    exact ⟨rfl, rfl⟩
  · rw [hptes j hj, if_pos rfl]
  · intro k hk hkj
    rw [if_neg htable, hptes k hk, if_neg hkj]
  · rw [if_neg htable]
    exact ht

/-- What `paging_alloc_page` writes. -/
theorem Spaces.added (h : Spaces own D s) (hi₀ : 1 ≤ i) (hi : i < 1023) (hj : j < 1024)
    (ho : o < 4096) (hs : pagingAllocPage (vaddr i j o) s = some s') :
    ∃ f t, PageAdded own s i j f t s'.mem := by
  have hsome : ∃ f fs, s.free = f :: fs ∧ (present (pdeAt s.mem s.cr3 i) = false →
      ∃ t fs', fs = t :: fs') := by
    rcases h.laid.allocPage_cases hi₀ hi hj ho with ⟨_, _, s'', hs'', -, hlen⟩ | ⟨hnone, -⟩
    · unfold framesForPage at hlen
      cases hfree : s.free with
      | nil =>
          rw [hfree] at hlen
          split at hlen <;> simp at hlen
      | cons f fs =>
          refine ⟨f, fs, rfl, fun hpde => ?_⟩
          rw [hfree, hpde, if_neg (by decide), List.length_cons] at hlen
          exact List.exists_cons_of_length_pos (by omega)
    · simp [hnone] at hs
  obtain ⟨f, fs, hfree, htable⟩ := hsome
  cases hpde : present (pdeAt s.mem s.cr3 i) with
  | true => exact ⟨f, _, h.added_present hi₀ hi hj ho hpde hfree hs⟩
  | false =>
      obtain ⟨t, fs', rfl⟩ := htable hpde
      exact ⟨f, t, h.added_absent hi₀ hi hj ho hpde hfree hs⟩

namespace PageAdded

variable {k l : Nat}

/-- The frame of the table is in use or was free. -/
theorem table_kind (h : PageAdded own s i j f t m) (hs : Spaces own D s) :
    own t = .table ∨ own t = .free := by
  have ht := h.table
  split at ht
  · next htable =>
      rw [← ht]
      exact .inl (hs.table_kind hs.loaded htable)
  · exact .inr ht

theorem table_frame (h : PageAdded own s i j f t m) (hs : Spaces own D s) :
    IsFrame t ∧ s.cr3 ≠ t := by
  obtain ⟨n, hn⟩ := hs.laid.cr3
  rcases h.table_kind hs with ht | ht
  · exact ⟨hs.laid.isFrame (by simp [ht]), Laid.ne_of_own hn ht (by simp)⟩
  · exact ⟨hs.laid.isFrame (by simp [ht]), Laid.ne_of_own hn ht (by simp)⟩

theorem aligned (h : PageAdded own s i j f t m) (hs : Spaces own D s) :
    ∀ g ∈ [s.cr3, t], g % 4096 = 0 := by
  simpa using ⟨hs.laid.core.dir.1, (h.table_frame hs).1.1⟩

theorem frame (h : PageAdded own s i j f t m) (hs : Spaces own D s) : IsFrame f :=
  hs.laid.isFrame (by simp [h.fresh])

theorem hasTable (h : PageAdded own s i j f t m) (hi₀ : 1 ≤ i) (hi : i < 1023) :
    HasTable m s.cr3 k ↔ k = i ∨ HasTable s.mem s.cr3 k := by
  by_cases hk : k = i
  · subst hk
    refine iff_of_true ⟨hi₀, hi, ?_⟩ (.inl rfl)
    rw [← present_flagsOf, h.pde.2]
    rfl
  · constructor
    · rintro ⟨hk₀, hk₁, hp⟩
      exact .inr ⟨hk₀, hk₁, h.pdes k (by omega) hk ▸ hp⟩
    · rintro (hki | ⟨hk₀, hk₁, hp⟩)
      · exact absurd hki hk
      · exact ⟨hk₀, hk₁, (h.pdes k (by omega) hk).symm ▸ hp⟩

/-- The entries of another table. -/
theorem pte_other (h : PageAdded own s i j f t m) (hs : Spaces own D s)
    (htable : HasTable s.mem s.cr3 k) (hki : k ≠ i) (hl : l < 1024) :
    pteAt m s.cr3 k l = pteAt s.mem s.cr3 k l := by
  obtain ⟨n, hn⟩ := hs.laid.cr3
  have hkind := hs.table_kind hs.loaded htable
  have hpde := h.pdes k (by have := htable.2.1; omega) hki
  rw [pteAt, pteAt, hpde]
  refine h.agree.word (h.aligned hs) (hs.laid.isFrame (by simp [hkind])).1 ?_ (by omega)
  intro hmem
  rcases List.mem_pair.mp hmem with heq | heq
  · exact Laid.ne_of_own hkind hn (by simp) heq
  · have ht := h.table
    split at ht
    · next htable' => exact hki (hs.apart.tables hs.loaded hs.loaded htable htable' (heq.trans ht.symm)).2
    · exact Laid.ne_of_own hkind ht (by simp) heq

/-- The entries of the table itself. -/
theorem pte_same (h : PageAdded own s i j f t m) (hl : l < 1024) :
    pteAt m s.cr3 i l = if l = j then f ||| 0x07 else
      if HasTable s.mem s.cr3 i then pteAt s.mem s.cr3 i l else 0 := by
  rw [pteAt, h.pde.1]
  split
  · next hlj =>
      rw [hlj]
      exact h.pte
  · next hlj => exact h.ptes l hl hlj

theorem hasPage (h : PageAdded own s i j f t m) (hs : Spaces own D s) (hi₀ : 1 ≤ i) (hi : i < 1023)
    (hj : j < 1024) : HasPage m s.cr3 k l ↔ (k = i ∧ l = j) ∨ HasPage s.mem s.cr3 k l := by
  have hnew : present (f ||| 0x07) = true := (present_or (h.frame hs).1 (by decide)).trans rfl
  unfold HasPage
  rw [h.hasTable hi₀ hi]
  by_cases hki : k = i
  · subst hki
    by_cases hlj : l = j
    · subst hlj
      simp [h.pte_same hj, hnew, hj]
    · by_cases htable : HasTable s.mem s.cr3 k
      · constructor
        · rintro ⟨-, hl, hp⟩
          rw [h.pte_same hl, if_neg hlj, if_pos htable] at hp
          exact .inr ⟨htable, hl, hp⟩
        · rintro (⟨-, heq⟩ | ⟨-, hl, hp⟩)
          · exact absurd heq hlj
          · exact ⟨.inl rfl, hl, by rwa [h.pte_same hl, if_neg hlj, if_pos htable]⟩
      · refine iff_of_false ?_ (by simp [hlj, htable])
        rintro ⟨-, hl, hp⟩
        rw [h.pte_same hl, if_neg hlj, if_neg htable] at hp
        cases hp
  · constructor
    · rintro ⟨htable, hl, hp⟩
      have htable := htable.resolve_left hki
      rw [h.pte_other hs htable hki hl] at hp
      exact .inr ⟨htable, hl, hp⟩
    · rintro (⟨heq, -⟩ | ⟨htable, hl, hp⟩)
      · exact absurd heq hki
      · exact ⟨.inr htable, hl, by rwa [h.pte_other hs htable hki hl]⟩

/-- The pages that were there already. -/
theorem pte_old (h : PageAdded own s i j f t m) (hs : Spaces own D s) (hpage : HasPage s.mem s.cr3 k l)
    (hne : ¬ (k = i ∧ l = j)) : pteAt m s.cr3 k l = pteAt s.mem s.cr3 k l := by
  by_cases hki : k = i
  · subst hki
    rw [h.pte_same hpage.2.1, if_neg fun hlj => hne ⟨rfl, hlj⟩, if_pos hpage.1]
  · exact h.pte_other hs hpage.1 hki hpage.2.1

theorem pte_new (h : PageAdded own s i j f t m) (hs : Spaces own D s) (hj : j < 1024) :
    frameOf (pteAt m s.cr3 i j) = f ∧ flagsOf (pteAt m s.cr3 i j) = 0x07 := by
  rw [h.pte_same hj, if_pos rfl, frameOf_or (h.frame hs).1 (h.frame hs).lt (by decide),
    flagsOf_or (h.frame hs).1 (by decide)]
  exact ⟨rfl, rfl⟩

/-- The table of the page is none of the other tables. -/
theorem table_ne (h : PageAdded own s i j f t m) (hs : Spaces own D s) {k : Nat}
    (htable : HasTable s.mem s.cr3 k) (hki : k ≠ i) : frameOf (pdeAt m s.cr3 k) ≠ t := by
  intro heq
  have hk := htable.2.1
  rw [h.pdes k (by omega) hki] at heq
  have ht := h.table
  split at ht
  · next htable' =>
      exact hki (hs.apart.tables hs.loaded hs.loaded htable htable' (heq.trans ht.symm)).2
  · exact Laid.ne_of_own (hs.table_kind hs.loaded htable) ht (by simp) heq

/-- The frame of the page was free, and is not the one of an old page. -/
theorem frame_ne (h : PageAdded own s i j f t m) (hs : Spaces own D s) {k l : Nat}
    (hpage : HasPage s.mem s.cr3 k l) : frameOf (pteAt s.mem s.cr3 k l) ≠ f :=
  Laid.ne_of_own (hs.page_kind hs.loaded hpage) h.fresh (by simp)

theorem tables_apart (h : PageAdded own s i j f t m) (hs : Spaces own D s) (hi₀ : 1 ≤ i)
    (hi : i < 1023) {k k' : Nat} (htable : HasTable m s.cr3 k) (htable' : HasTable m s.cr3 k')
    (heq : frameOf (pdeAt m s.cr3 k) = frameOf (pdeAt m s.cr3 k')) : k = k' := by
  have htables := fun k => @hasTable own s i j f t m k h hi₀ hi
  by_contra hne
  by_cases hki : k = i
  · have hki' : k' ≠ i := fun hki' => hne (hki.trans hki'.symm)
    have hold := ((htables k').mp htable').resolve_left hki'
    rw [hki, h.pde.1] at heq
    exact h.table_ne hs hold hki' heq.symm
  · have hold := ((htables k).mp htable).resolve_left hki
    by_cases hki' : k' = i
    · rw [hki', h.pde.1] at heq
      exact h.table_ne hs hold hki heq
    · have hold' := ((htables k').mp htable').resolve_left hki'
      have hk := hold.2.1
      have hk' := hold'.2.1
      rw [h.pdes k (by omega) hki, h.pdes k' (by omega) hki'] at heq
      exact hne (hs.apart.tables hs.loaded hs.loaded hold hold' heq).2

theorem pages_apart (h : PageAdded own s i j f t m) (hs : Spaces own D s) (hi₀ : 1 ≤ i)
    (hi : i < 1023) (hj : j < 1024) {k l k' l' : Nat} (hpage : HasPage m s.cr3 k l)
    (hpage' : HasPage m s.cr3 k' l')
    (heq : frameOf (pteAt m s.cr3 k l) = frameOf (pteAt m s.cr3 k' l')) : k = k' ∧ l = l' := by
  have hpages := fun k l => @hasPage own D s i j f t m k l h hs hi₀ hi hj
  by_cases hkl : k = i ∧ l = j
  · by_cases hkl' : k' = i ∧ l' = j
    · exact ⟨hkl.1.trans hkl'.1.symm, hkl.2.trans hkl'.2.symm⟩
    · have hold' := ((hpages k' l').mp hpage').resolve_left hkl'
      rw [hkl.1, hkl.2, (h.pte_new hs hj).1, h.pte_old hs hold' hkl'] at heq
      exact absurd heq.symm (h.frame_ne hs hold')
  · have hold := ((hpages k l).mp hpage).resolve_left hkl
    by_cases hkl' : k' = i ∧ l' = j
    · rw [hkl'.1, hkl'.2, (h.pte_new hs hj).1, h.pte_old hs hold hkl] at heq
      exact absurd heq (h.frame_ne hs hold)
    · have hold' := ((hpages k' l').mp hpage').resolve_left hkl'
      rw [h.pte_old hs hold hkl, h.pte_old hs hold' hkl'] at heq
      exact (hs.apart.pages hs.loaded hs.loaded hold hold' heq).2

/-- The loaded directory is private afterwards. -/
theorem apart (h : PageAdded own s i j f t m) (hs : Spaces own D s) (hi₀ : 1 ≤ i) (hi : i < 1023)
    (hj : j < 1024) : Private (fun d => d = s.cr3) m := by
  have hpages := fun k l => @hasPage own D s i j f t m k l h hs hi₀ hi hj
  have htables := fun k => @hasTable own s i j f t m k h hi₀ hi
  refine ⟨?_, ?_, ?_, ?_, ?_⟩
  · rintro d k rfl htable
    by_cases hki : k = i
    · rw [hki]
      exact h.pde.2
    · have hold := ((htables k).mp htable).resolve_left hki
      have hk := hold.2.1
      rw [h.pdes k (by omega) hki]
      exact hs.apart.pdes hs.loaded hold
  · rintro d k rfl htable
    by_cases hki : k = i
    · exact ⟨j, (hpages k j).mpr (.inl ⟨hki, rfl⟩)⟩
    · obtain ⟨l, hl⟩ := hs.apart.filled hs.loaded (((htables k).mp htable).resolve_left hki)
      exact ⟨l, (hpages k l).mpr (.inr hl)⟩
  · rintro d k l rfl hpage
    by_cases hkl : k = i ∧ l = j
    · rw [hkl.1, hkl.2]
      exact (h.pte_new hs hj).2
    · have hold := ((hpages k l).mp hpage).resolve_left hkl
      rw [h.pte_old hs hold hkl]
      exact hs.apart.ptes hs.loaded hold
  · rintro d d' k k' rfl rfl htable htable' heq
    exact ⟨rfl, h.tables_apart hs hi₀ hi htable htable' heq⟩
  · rintro d d' k l k' l' rfl rfl hpage hpage' heq
    exact ⟨rfl, h.pages_apart hs hi₀ hi hj hpage hpage' heq⟩

/-- Only the directory, a table of it and free frames are written. -/
theorem confined (h : PageAdded own s i j f t s'.mem) (hs : Spaces own D s) (hi₀ : 1 ≤ i)
    (hi : i < 1023) (hj : j < 1024) (hcr3 : s'.cr3 = s.cr3)
    (hkinds : ∀ g, own g ≠ .free → own' g = own g) : Confined own s own' s' := by
  have hold : ∀ g, g = t → InSpace s.mem s.cr3 g ∨ own g = .free := by
    rintro g rfl
    have ht := h.table
    split at ht
    · next htable => exact .inl (ht ▸ .table htable)
    · exact .inr ht
  refine ⟨hcr3, hkinds, ?_, ?_⟩
  · intro g hnone hfree hspace o ho
    refine h.agree.byte (h.aligned hs) (hs.laid.isFrame hnone).1 ?_ ho
    intro hmem
    rcases List.mem_pair.mp hmem with rfl | heq
    · exact hspace .dir
    · exact (hold g heq).elim hspace hfree
  · intro g hg
    cases hg with
    | dir => exact .inl .dir
    | @table k htable =>
        by_cases hki : k = i
        · subst hki
          exact hold _ h.pde.1
        · have htable := ((h.hasTable hi₀ hi).mp htable).resolve_left hki
          rw [h.pdes k (by have := htable.2.1; omega) hki]
          exact .inl (.table htable)
    | @page k l hpage =>
        by_cases hkl : k = i ∧ l = j
        · rw [hkl.1, hkl.2, (h.pte_new hs hj).1]
          exact .inr h.fresh
        · have hpage := ((h.hasPage hs hi₀ hi hj).mp hpage).resolve_left hkl
          rw [h.pte_old hs hpage hkl]
          exact .inl (.page hpage)

end PageAdded

/-- A page is allocated in the loaded address space. -/
theorem Spaces.allocPage (h : Spaces own D s) (hi₀ : 1 ≤ i) (hi : i < 1023) (hj : j < 1024)
    (ho : o < 4096) (hs : pagingAllocPage (vaddr i j o) s = some s') :
    ∃ own', Spaces own' D s' ∧ Confined own s own' s' := by
  obtain ⟨f, t, hadded⟩ := h.added hi₀ hi hj ho hs
  rcases h.laid.allocPage_cases hi₀ hi hj ho with ⟨g, own', s'', hs'', hnew, -⟩ | ⟨hnone, -⟩
  · obtain rfl : s'' = s' := Option.some.inj (hs''.symm.trans hs)
    have hconfined := hadded.confined h hi₀ hi hj hnew.cr3 hnew.kinds
    exact ⟨own', hconfined.spaces h hnew.laid (hadded.apart h hi₀ hi hj), hconfined⟩
  · simp [hnone] at hs

/-- The task finds its other pages as they were. -/
theorem Spaces.allocPage_userByte {v : Nat} (h : Spaces own D s) (hi₀ : 1 ≤ i) (hi : i < 1023)
    (hj : j < 1024) (ho : o < 4096) (hs : pagingAllocPage (vaddr i j o) s = some s')
    (hv : v < 2 ^ 32) (hother : v / 4096 ≠ i * 1024 + j) :
    userByte s'.mem s.cr3 v = userByte s.mem s.cr3 v := by
  obtain ⟨f, t, hadded⟩ := h.added hi₀ hi hj ho hs
  obtain ⟨own', h', hconfined⟩ := h.allocPage hi₀ hi hj ho hs
  obtain ⟨k, l, o', hk, hl, ho', rfl⟩ := Spaces.exists_vaddr hv
  have hne : ¬ (k = i ∧ l = j) := by
    rintro ⟨rfl, rfl⟩
    apply hother
    unfold vaddr
    omega
  have hafter := @Spaces.userAddr_eq own' D s' s.cr3 k l o' false h' (hconfined.cr3 ▸ h'.loaded) hk hl ho'
  have hsame : HasPage s'.mem s.cr3 k l ↔ HasPage s.mem s.cr3 k l := by
    rw [hadded.hasPage h hi₀ hi hj]
    simp [hne]
  unfold userByte
  rw [hafter, h.userAddr_eq h.loaded hk hl ho']
  by_cases hpage : HasPage s.mem s.cr3 k l
  · rw [if_pos hpage, if_pos (hsame.mpr hpage), hadded.pte_old h hpage hne, Option.map_some,
      Option.map_some]
    have hkind := h.page_kind h.loaded hpage
    obtain ⟨n, hn⟩ := h.laid.cr3
    refine congrArg some (hadded.agree.byte (hadded.aligned h) (h.laid.isFrame (by simp [hkind])).1 ?_ ho')
    intro hmem
    rcases List.mem_pair.mp hmem with heq | heq
    · exact Laid.ne_of_own hkind hn (by simp) heq
    · rcases hadded.table_kind h with ht | ht
      · exact Laid.ne_of_own hkind ht (by simp) heq
      · exact Laid.ne_of_own hkind ht (by simp) heq
  · rw [if_neg hpage, if_neg fun hp => hpage (hsame.mp hp)]
    rfl

end AddPage

section Clone

variable {own : Nat → Kind} {D : Nat → Prop} {s s' : Vm} {bssEnd d i j v : Nat}
  {log : List (Use × Nat)}

/-- Behind an entry of the user space there are no pages of the kernel. -/
theorem not_inKernel (hbss : bssEnd ≤ 0x400000) (hi₀ : 1 ≤ i) (hj : j < 1024) :
    inKernel (kernelEndPage bssEnd) (pageVaddr i j) = false := by
  have hend : kernelEndPage bssEnd ≤ 0x400000 := by
    rw [kernelEndPage, frameOf_eq (by unfold u32; omega), u32]
    omega
  rw [pageVaddr_eq hj, inKernel, Bool.and_eq_false_iff]
  refine .inr (decide_eq_false ?_)
  omega

theorem Spaces.user_entries (h : Spaces own D s) (hpage : HasPage s.mem s.cr3 i j) :
    user (pdeAt s.mem s.cr3 i) = true ∧ user (pteAt s.mem s.cr3 i j) = true := by
  rw [← user_flagsOf (pdeAt _ _ _), ← user_flagsOf (pteAt _ _ _ _), h.apart.pdes h.loaded hpage.1,
    h.apart.ptes h.loaded hpage]
  exact ⟨rfl, rfl⟩

/-- Every table of a private directory is copied. -/
theorem Spaces.deep (h : Spaces own D s) (hbss : bssEnd ≤ 0x400000)
    (htable : HasTable s.mem s.cr3 i) : deep (kernelEndPage bssEnd) s i = true := by
  obtain ⟨j, hpage⟩ := h.apart.filled h.loaded htable
  obtain ⟨hpde, hpte⟩ := h.user_entries hpage
  unfold Paging.deep
  rw [htable.2.2, Bool.true_and]
  split
  · exact List.any_eq_true.mpr ⟨j, List.mem_range.mpr hpage.2.1,
      by simp [hpage.2.2, hpte, not_inKernel hbss htable.1 hpage.2.1]⟩
  · exact hpde

/-- Every page of a private directory is copied. -/
theorem Spaces.ownPage (h : Spaces own D s) (hbss : bssEnd ≤ 0x400000)
    (hpage : HasPage s.mem s.cr3 i j) : ownPage bssEnd s i j = true := by
  obtain ⟨hpde, hpte⟩ := h.user_entries hpage
  simp [Paging.ownPage, hpde, hpte, not_inKernel hbss hpage.1.1 hpage.2.1]

/-- The clone has the same tables. -/
theorem Spaces.clone_hasTable (h : Spaces own D s) (hbss : bssEnd ≤ 0x400000)
    (hc : Cloned bssEnd s d log s') : HasTable s'.mem d i ↔ HasTable s.mem s.cr3 i := by
  constructor
  · rintro ⟨hi₀, hi, hp⟩
    rcases hc.entry h.laid.cloneable hi hp with ⟨-, hpde, -⟩ | ⟨hdeep, -, -⟩
    · exact ⟨hi₀, hi, hpde⟩
    · simp only [Paging.deep, Bool.and_eq_true] at hdeep
      exact ⟨hi₀, hi, hdeep.1⟩
  · intro htable
    obtain ⟨j, hpage⟩ := h.apart.filled h.loaded htable
    have hmapped : mapped s'.mem d i j = true := by
      rw [(hc.isClone (by omega) h.laid.cloneable).maps i j htable.2.1 hpage.2.1]
      exact mapped_iff.mpr ⟨htable.2.2, hpage.2.2⟩
    exact ⟨htable.1, htable.2.1, (mapped_iff.mp hmapped).1⟩

theorem Spaces.clone_hasPage (h : Spaces own D s) (hbss : bssEnd ≤ 0x400000)
    (hc : Cloned bssEnd s d log s') : HasPage s'.mem d i j ↔ HasPage s.mem s.cr3 i j := by
  have hmaps := (hc.isClone (by omega) h.laid.cloneable).maps i j
  unfold HasPage
  rw [h.clone_hasTable hbss hc]
  constructor
  · rintro ⟨htable, hj, hp⟩
    have hpde := ((h.clone_hasTable hbss hc).mpr htable).2.2
    have hold := (hmaps htable.2.1 hj).symm.trans (mapped_iff.mpr ⟨hpde, hp⟩)
    exact ⟨htable, hj, (mapped_iff.mp hold).2⟩
  · rintro ⟨htable, hj, hp⟩
    have hnew := (hmaps htable.2.1 hj).trans (mapped_iff.mpr ⟨htable.2.2, hp⟩)
    exact ⟨htable, hj, (mapped_iff.mp hnew).2⟩

/-- A page of the clone is in a frame that was free, with the bytes of the original. -/
theorem Spaces.clone_page (h : Spaces own D s) (hbss : bssEnd ≤ 0x400000)
    (hc : Cloned bssEnd s d log s') (hpage : HasPage s.mem s.cr3 i j) :
    own (frameOf (pteAt s'.mem d i j)) = .free ∧ ∀ o < 4096,
      s'.mem (frameOf (pteAt s'.mem d i j) + o) = s.mem (frameOf (pteAt s.mem s.cr3 i j) + o) := by
  obtain ⟨hmem, hbytes⟩ := (hc.isClone (by omega) h.laid.cloneable).copied i j hpage.1.2.1 hpage.2.1
    (mapped_iff.mpr ⟨hpage.1.2.2, hpage.2.2⟩) (h.ownPage hbss hpage)
  exact ⟨hc.popped_free h.laid (List.mem_cons_of_mem _ hmem), hbytes⟩

theorem Spaces.clone_table (h : Spaces own D s) (hbss : bssEnd ≤ 0x400000)
    (hc : Cloned bssEnd s d log s') (htable : HasTable s.mem s.cr3 i) :
    own (frameOf (pdeAt s'.mem d i)) = .free := by
  have hnew := (h.clone_hasTable hbss hc).mpr htable
  rcases hc.entry h.laid.cloneable htable.2.1 hnew.2.2 with ⟨hshallow, -⟩ | ⟨-, hlog, -⟩
  · rw [h.deep hbss htable] at hshallow
    cases hshallow
  · exact hc.popped_free h.laid (List.mem_cons_of_mem _ (List.mem_map_of_mem (f := Prod.snd) hlog))

/-- The clone is private. -/
theorem Spaces.clone_apart (h : Spaces own D s) (hbss : bssEnd ≤ 0x400000)
    (hc : Cloned bssEnd s d log s') : Private (fun g => g = d) s'.mem := by
  have hclone := hc.isClone (by omega) h.laid.cloneable
  have hmapped : ∀ {i j}, HasPage s.mem s.cr3 i j → mapped s.mem s.cr3 i j = true :=
    fun hpage => mapped_iff.mpr ⟨hpage.1.2.2, hpage.2.2⟩
  have hflags := fun i j (hpage : HasPage s.mem s.cr3 i j) =>
    hclone.flags i j hpage.1.2.1 hpage.2.1 (hmapped hpage)
  refine ⟨?_, ?_, ?_, ?_, ?_⟩
  · rintro g i rfl htable
    obtain ⟨j, hpage⟩ := h.apart.filled h.loaded ((h.clone_hasTable hbss hc).mp htable)
    rw [(hflags i j hpage).1]
    exact h.apart.pdes h.loaded hpage.1
  · rintro g i rfl htable
    obtain ⟨j, hpage⟩ := h.apart.filled h.loaded ((h.clone_hasTable hbss hc).mp htable)
    exact ⟨j, (h.clone_hasPage hbss hc).mpr hpage⟩
  · rintro g i j rfl hpage
    have hpage := (h.clone_hasPage hbss hc).mp hpage
    rw [(hflags i j hpage).2]
    exact h.apart.ptes h.loaded hpage
  · rintro g g' i i' rfl rfl htable htable' heq
    exact ⟨rfl, hc.entry_distinct h.laid htable.1 htable.2.1 htable'.1 htable'.2.1 htable.2.2
      htable'.2.2 heq⟩
  · rintro g g' i j i' j' rfl rfl hpage hpage' heq
    have hold := (h.clone_hasPage hbss hc).mp hpage
    have hold' := (h.clone_hasPage hbss hc).mp hpage'
    exact ⟨rfl, hclone.distinct i j i' j' hold.1.2.1 hold.2.1 (hmapped hold) (h.ownPage hbss hold)
      hold'.1.2.1 hold'.2.1 (hmapped hold') (h.ownPage hbss hold') heq⟩

/-- What a fork's clone leaves: the address spaces that were there are as they were, and the new
one, which is private too, shows the bytes of the loaded one. -/
structure SpaceCloned (own : Nat → Kind) (D : Nat → Prop) (s : Vm) (d k : Nat) (own' : Nat → Kind)
    (s' : Vm) : Prop where
  spaces : Spaces own' (fun g => D g ∨ g = d) s'
  kind : own' d = .dir k
  kinds : ∀ g, own g ≠ .free → own' g = own g
  cr3 : s'.cr3 = s.cr3
  kept : ∀ g, D g → SpaceKept s.mem s'.mem g
  copied : ∀ v < 2 ^ 32, userByte s'.mem d v = userByte s.mem s.cr3 v

theorem Spaces.clone (h : Spaces own D s) (hbss : bssEnd ≤ 0x400000)
    (hrun : pagingCloneDirectory bssEnd s = some (d, s')) (k : Nat) :
    ∃ own', SpaceCloned own D s d k own' s' := by
  obtain ⟨log, hc⟩ := Cloned.of_some h.laid.cloneable hrun
  obtain ⟨own', hlaid, hd, hkind, hcr3, hkinds⟩ := h.laid.clone hrun k
  have hkept : ∀ g, D g → SpaceKept s.mem s'.mem g := by
    intro g hg f hf o ho
    obtain ⟨hnone, hfree⟩ := h.used hg hf
    exact hc.work.mem.byte h.laid.cloneable.frame_aligned (h.laid.isFrame hnone).1
      (fun hmem => hfree (h.laid.free_of_mem hmem)) ho
  have hold : Private D s'.mem := h.apart.congr fun g hg => (hkept g hg).entries
  have hnew := h.clone_apart hbss hc
  -- a frame of an address space that was there is not one of the clone
  have hapart : ∀ {g f}, D g → InSpace s'.mem g f → own f ≠ .free := by
    intro g f hg hf
    exact (h.used hg ((hkept g hg).entries.inSpace.mp hf)).2
  have htable : ∀ {i}, HasTable s'.mem d i → own (frameOf (pdeAt s'.mem d i)) = .free :=
    fun ht => h.clone_table hbss hc ((h.clone_hasTable hbss hc).mp ht)
  have hpage : ∀ {i j}, HasPage s'.mem d i j → own (frameOf (pteAt s'.mem d i j)) = .free :=
    fun hp => (h.clone_page hbss hc ((h.clone_hasPage hbss hc).mp hp)).1
  have hspaces : Spaces own' (fun g => D g ∨ g = d) s' := by
    refine ⟨hlaid, ?_, ⟨?_, ?_, ?_, ?_, ?_⟩, .inl (hcr3 ▸ h.loaded)⟩
    · rintro g (hg | rfl)
      · obtain ⟨n, hn⟩ := h.dirs g hg
        exact ⟨n, by rw [hkinds g (by simp [hn]), hn]⟩
      · exact ⟨k, hkind⟩
    · rintro g i (hg | hg) ht
      · exact hold.pdes hg ht
      · exact hnew.pdes hg ht
    · rintro g i (hg | hg) ht
      · exact hold.filled hg ht
      · exact hnew.filled hg ht
    · rintro g i j (hg | hg) hp
      · exact hold.ptes hg hp
      · exact hnew.ptes hg hp
    · rintro g g' i i' (hg | rfl) (hg' | rfl) ht ht' heq
      · exact hold.tables hg hg' ht ht' heq
      · exact absurd (heq ▸ htable ht') (hapart hg (.table ht))
      · exact absurd (heq ▸ htable ht) (hapart hg' (.table ht'))
      · exact hnew.tables rfl rfl ht ht' heq
    · rintro g g' i j i' j' (hg | rfl) (hg' | rfl) hp hp' heq
      · exact hold.pages hg hg' hp hp' heq
      · exact absurd (heq ▸ hpage hp') (hapart hg (.page hp))
      · exact absurd (heq ▸ hpage hp) (hapart hg' (.page hp'))
      · exact hnew.pages rfl rfl hp hp' heq
  refine ⟨own', hspaces, hkind, hkinds, hcr3, hkept, fun v hv => ?_⟩
  obtain ⟨i, j, o, hi, hj, ho, rfl⟩ := Spaces.exists_vaddr hv
  have hafter := @Spaces.userAddr_eq _ _ _ d i j o false hspaces (.inr rfl) hi hj ho
  unfold userByte
  rw [hafter, h.userAddr_eq h.loaded hi hj ho]
  by_cases hp : HasPage s.mem s.cr3 i j
  · rw [if_pos hp, if_pos ((h.clone_hasPage hbss hc).mpr hp), Option.map_some, Option.map_some,
      (h.clone_page hbss hc hp).2 o ho]
  · rw [if_neg hp, if_neg fun hp' => hp ((h.clone_hasPage hbss hc).mp hp')]
    rfl

end Clone

end SRos.Paging
