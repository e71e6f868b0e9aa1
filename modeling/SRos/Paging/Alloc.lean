import SRos.Paging.Layout

/-!
# Allocating user pages

`paging_alloc_page` takes a frame for the page and, where the directory has no table for it yet,
another one for the table. It changes the translation of this page and of no other, and no memory
but that of the directory and the tables.
-/

namespace SRos.Paging

open Bytes

/-- The address at offset `o` of page `j` behind entry `i` of the directory. -/
def vaddr (i j o : Nat) : Nat := i * 2 ^ 22 + j * 2 ^ 12 + o

/-- The page has been mapped to the frame `f`, which was free. -/
structure NewPage (own : Nat → Kind) (s : Vm) (i j f : Nat) (own' : Nat → Kind) (s' : Vm) :
    Prop where
  laid : Laid own' s'
  fresh : own f = .free
  page : own' f = .page
  kinds : ∀ g, own g ≠ .free → own' g = own g
  cr3 : s'.cr3 = s.cr3
  pops : ∃ ps, s.free = f :: ps ++ s'.free
  pdes : ∀ i', 1 ≤ i' → i' < 1023 →
    present (pdeAt s'.mem s.cr3 i') = (decide (i' = i) || present (pdeAt s.mem s.cr3 i'))
  maps : ∀ o < 4096, s'.translate (vaddr i j o) = some (f + o)
  others : ∀ i' j' o, i' < 1023 → j' < 1024 → o < 4096 → (i' = i → j' ≠ j) →
    s'.translate (vaddr i' j' o) = s.translate (vaddr i' j' o)
  mem : ∀ g, own' g ≠ .none → (own' g).structural = false →
    ∀ o < 4096, s'.mem (g + o) = s.mem (g + o)

/-- The frames that mapping a page behind entry `i` takes. -/
def framesForPage (s : Vm) (i : Nat) : Nat := if present (pdeAt s.mem s.cr3 i) then 1 else 2

section AllocPage

variable {own : Nat → Kind} {s : Vm} {i j o f : Nat} {fs : List Nat}

/-- The translation of a page depends on two entries. -/
theorem translate_congr {s s' : Vm} (hcr3 : s'.cr3 = s.cr3) (hframe : frameOf s.cr3 = s.cr3)
    (hj : j < 1024) (ho : o < 4096)
    (hpde : pdeAt s'.mem s.cr3 i = pdeAt s.mem s.cr3 i)
    (hpte : present (pdeAt s.mem s.cr3 i) = true → pteAt s'.mem s.cr3 i j = pteAt s.mem s.cr3 i j) :
    s'.translate (vaddr i j o) = s.translate (vaddr i j o) := by
  unfold vaddr
  rw [translate_split (by rw [hcr3, hframe]) hj ho, translate_split hframe hj ho, hcr3]
  unfold mapped
  rw [hpde]
  by_cases hp : present (pdeAt s.mem s.cr3 i) = true
  · rw [hpte hp]
  · simp [hp]

/-- A page whose entry in its table has been set. -/
theorem translate_page {s : Vm} (hcr3 : frameOf s.cr3 = s.cr3) (hframe : IsFrame f) (hj : j < 1024)
    (ho : o < 4096) (hpde : present (pdeAt s.mem s.cr3 i) = true)
    (hpte : pteAt s.mem s.cr3 i j = f ||| 0x07) : s.translate (vaddr i j o) = some (f + o) := by
  have hboth : mapped s.mem s.cr3 i j = true := by
    rw [mapped_iff, hpte, present_or hframe.1 (by decide)]
    exact ⟨hpde, rfl⟩
  unfold vaddr
  rw [translate_split hcr3 hj ho, hboth, hpte, frameOf_or hframe.1 hframe.lt (by decide)]
  rfl

/-- Behind a present entry there is a table. -/
theorem Laid.ne_of_present (h : Laid own s) {g : Nat} {k : Kind} (hi : i < 1023)
    (hp : present (pdeAt s.mem s.cr3 i) = true) (hg : own g = k) (hk : k ≠ .table)
    (hk' : k ≠ .idTable) : frameOf (pdeAt s.mem s.cr3 i) ≠ g := by
  obtain ⟨c, hc⟩ := h.cr3
  by_cases hzero : i = 0
  · rw [hzero, h.core.first.2]
    exact Laid.ne_of_own h.id hg hk'.symm
  · exact Laid.ne_of_own (h.entries _ c hc i (by omega) hi hp) hg hk.symm

/-- The table behind a present entry is not the one behind another entry. -/
theorem Laid.table_ne (h : Laid own s) {i' : Nat} (hi₀ : 1 ≤ i) (hi : i < 1023) (hi' : i' < 1023)
    (hne : i' ≠ i) (hp : present (pdeAt s.mem s.cr3 i) = true)
    (hp' : present (pdeAt s.mem s.cr3 i') = true) :
    frameOf (pdeAt s.mem s.cr3 i') ≠ frameOf (pdeAt s.mem s.cr3 i) := by
  obtain ⟨k, hk⟩ := h.cr3
  by_cases hzero : i' = 0
  · rw [hzero, h.core.first.2]
    exact Laid.ne_of_own h.id (h.entries _ k hk i hi₀ hi hp) (by simp)
  · exact fun heq => hne (h.distinct _ k hk i' i (by omega) hi' hi₀ hi hp' hp heq)

/-- The page has a table. -/
theorem Laid.allocPage_present (h : Laid own s) (hi₀ : 1 ≤ i) (hi : i < 1023) (hj : j < 1024)
    (ho : o < 4096) (hpde : present (pdeAt s.mem s.cr3 i) = true) (hfree : s.free = f :: fs) :
    ∃ s', pagingAllocPage (vaddr i j o) s = some s' ∧ s'.free = fs ∧
      NewPage own s i j f (Function.update own f .page) s' := by
  obtain ⟨k, hk⟩ := h.cr3
  have hf := h.free_of_mem (f := f) (by simp [hfree])
  have hframe := h.isFrame (f := f) (by simp [hf])
  have htable := h.entries _ k hk i hi₀ hi hpde
  have hkeep : ∀ g, own g ≠ .free → Function.update own f .page g = own g := by
    intro g hg
    apply Function.update_of_ne
    rintro rfl
    exact hg hf
  have hpop : Laid (Function.update own f .page) { s with free := fs } := h.pop hfree (.inl rfl)
  have hmap := hpop.core.mapPage_present (i := i) (j := j) (o := o) hi hj ho hframe hpde
  have hmapped : Laid (Function.update own f .page)
      { s with free := fs, mem := store32 s.mem (frameOf (pdeAt s.mem s.cr3 i) + 4 * j) (f ||| 0x07) } :=
    hpop.setPte (by rw [hkeep _ (by simp [htable]), htable]) hj (userEntry_lt hframe)
      (by rw [frameOf_or hframe.1 hframe.lt (by decide), Function.update_self])
  have hcr3 := h.core.cr3_frame
  have htframe := h.isFrame (f := frameOf (pdeAt s.mem s.cr3 i)) (by simp [htable])
  have hdir := h.core.dir.1
  generalize ht : frameOf (pdeAt s.mem s.cr3 i) = t at *
  have htd : s.cr3 ≠ t := Laid.ne_of_own hk htable (by simp)
  let m := store32 s.mem (t + 4 * j) (f ||| 0x07)
  have ht₀ := htframe.1
  have hpdes : ∀ i' < 1024, pdeAt m s.cr3 i' = pdeAt s.mem s.cr3 i' := by
    intro i' hi'
    exact load32_store32_ne (by omega)
  refine ⟨{ s with free := fs, mem := m }, ?_, rfl, hmapped, hf, by simp, hkeep, rfl,
    ⟨[], by simp [hfree]⟩, ?_, ?_, ?_, ?_⟩
  · simp only [pagingAllocPage, pfaAlloc, hfree, Option.bind_eq_bind, Option.bind_some]
    exact hmap
  · intro i' hi₀' hi'
    dsimp only
    rw [hpdes i' (by omega)]
    by_cases hii : i' = i
    · rw [hii, hpde]
      simp
    · simp [hii]
  · intro o' ho'
    have hpte : pteAt m s.cr3 i j = f ||| 0x07 := by
      rw [pteAt, hpdes i (by omega), ht]
      exact load32_store32_same _ _ (userEntry_lt hframe)
    exact translate_page hcr3 hframe hj ho' (by rwa [hpdes i (by omega)]) hpte
  · intro i' j' o' hi' hj' ho' hne
    refine translate_congr rfl hcr3 hj' ho' (hpdes i' (by omega)) fun hp => ?_
    dsimp only
    rw [pteAt, pteAt, hpdes i' (by omega)]
    by_cases hii : i' = i
    · have hjj := hne hii
      rw [hii, ht]
      exact load32_store32_ne (by omega)
    · have htne := h.table_ne hi₀ hi hi' hii hpde hp
      rw [ht] at htne
      have halign := (frameOf_aligned (pdeAt_lt s.mem s.cr3 i')).1
      exact load32_store32_ne (by omega)
  · intro g hg hstr o' ho'
    have hg' := hmapped.isFrame hg
    have hgt : g ≠ t := by
      rintro rfl
      rw [hkeep _ (by simp [htable]), htable] at hstr
      cases hstr
    have := hg'.1
    exact store32_of_outside (by omega)

/-- The page gets a table in the second frame of the stack. -/
theorem Laid.allocPage_absent {t : Nat} (h : Laid own s) (hi₀ : 1 ≤ i) (hi : i < 1023)
    (hj : j < 1024) (ho : o < 4096) (hpde : present (pdeAt s.mem s.cr3 i) = false)
    (hfree : s.free = f :: t :: fs) :
    ∃ s', pagingAllocPage (vaddr i j o) s = some s' ∧ s'.free = fs ∧
      NewPage own s i j f (Function.update (Function.update own f .page) t .table) s' := by
  have hf := h.free_of_mem (f := f) (by simp [hfree])
  have ht := h.free_of_mem (f := t) (by simp [hfree])
  have hframe := h.isFrame (f := f) (by simp [hf])
  have htframe := h.isFrame (f := t) (by simp [ht])
  have hft : f ≠ t := by
    have hnd := h.stacked.nodup
    rw [hfree] at hnd
    intro heq
    simp [heq] at hnd
  obtain ⟨k, hk⟩ := h.cr3
  have htd : t ≠ s.cr3 := Laid.ne_of_own ht hk (by simp)
  have hfd : s.cr3 ≠ f := Laid.ne_of_own hk hf (by simp)
  have htt : t ≠ idTable := Laid.ne_of_own ht h.id (by simp)
  have hpop : Laid (Function.update own f .page) { s with free := t :: fs } := h.pop hfree (.inl rfl)
  obtain ⟨m, hmap, hmem, hentry, hothers, hptes⟩ := hpop.core.mapPage_absent (j := j) (o := o) hi₀ hi
    hj ho hframe htframe h.idTable_ne htd htt hpde rfl
  dsimp only at hmap hmem hentry hothers
  have hlaid : Laid (Function.update (Function.update own f .page) t .table)
      { s with mem := m, free := fs } := by
    refine hpop.addTable rfl hi₀ hi hmem hentry hothers ?_
    intro j' hj' hp
    rw [hptes j' hj'] at hp ⊢
    split at hp
    · next hjj =>
        rw [if_pos hjj, frameOf_or hframe.1 hframe.lt (by decide), Function.update_self]
    · cases hp
  have hcr3 := h.core.cr3_frame
  have haligned : ∀ g ∈ [s.cr3, t], g % 4096 = 0 := by simpa using ⟨h.core.dir.1, htframe.1⟩
  have hnew : frameOf (pdeAt m s.cr3 i) = t := by
    rw [hentry, frameOf_or htframe.1 htframe.lt (by decide)]
  refine ⟨{ s with mem := m, free := fs }, ?_, rfl, hlaid, hf, ?_, ?_, rfl, ⟨[t], by simp [hfree]⟩,
    ?_, ?_, ?_, ?_⟩
  · simp only [pagingAllocPage, pfaAlloc, hfree, Option.bind_eq_bind, Option.bind_some]
    exact hmap
  · rw [Function.update_of_ne hft, Function.update_self]
  · intro g hg
    rw [Function.update_of_ne (fun heq => hg (by rw [heq, ht])),
      Function.update_of_ne (fun heq => hg (by rw [heq, hf]))]
  · intro i' hi₀' hi'
    dsimp only
    by_cases hii : i' = i
    · rw [hii, hentry, present_or htframe.1 (by decide)]
      simp [present]
    · rw [hothers i' (by omega) hii]
      simp [hii]
  · intro o' ho'
    have hpte : pteAt m s.cr3 i j = f ||| 0x07 := by
      rw [pteAt, hnew, hptes j hj, if_pos rfl]
    have hpde' : present (pdeAt m s.cr3 i) = true := by
      rw [hentry, present_or htframe.1 (by decide)]
      rfl
    exact translate_page hcr3 hframe hj ho' hpde' hpte
  · intro i' j' o' hi' hj' ho' hne
    by_cases hii : i' = i
    · -- the other pages behind the new table are not mapped, and were not mapped before
      have hpte : pteAt m s.cr3 i' j' = 0 := by
        rw [hii, pteAt, hnew, hptes j' hj', if_neg (hne hii)]
      unfold vaddr
      rw [translate_split (by exact hcr3) hj' ho', translate_split hcr3 hj' ho']
      dsimp only
      unfold mapped
      rw [hpte, hii, hpde, Bool.false_and]
      simp [present]
    · refine translate_congr rfl hcr3 hj' ho' (hothers i' (by omega) hii) fun hp => ?_
      dsimp only
      rw [pteAt, pteAt, hothers i' (by omega) hii]
      have hned := h.ne_of_present hi' hp hk (by simp) (by simp)
      have hnet := h.ne_of_present hi' hp ht (by simp) (by simp)
      exact hmem.word haligned (frameOf_aligned (pdeAt_lt _ _ _)).1 (by simp [hned, hnet]) (by omega)
  · intro g hg hstr o' ho'
    refine hmem.byte haligned (hlaid.isFrame hg).1 ?_ ho'
    intro hmem'
    rcases List.mem_pair.mp hmem' with rfl | rfl
    · rw [Function.update_of_ne htd.symm, Function.update_of_ne hfd, hk] at hstr
      cases hstr
    · rw [Function.update_self] at hstr
      cases hstr

/-- `paging_alloc_page` maps the page, or it lacks free frames. -/
theorem Laid.allocPage_cases (h : Laid own s) (hi₀ : 1 ≤ i) (hi : i < 1023) (hj : j < 1024)
    (ho : o < 4096) :
    (∃ f own' s', pagingAllocPage (vaddr i j o) s = some s' ∧ NewPage own s i j f own' s' ∧
      s.free.length = s'.free.length + framesForPage s i) ∨
      (pagingAllocPage (vaddr i j o) s = none ∧ s.free.length < framesForPage s i) := by
  unfold framesForPage
  cases hfree : s.free with
  | nil =>
      refine .inr ⟨by simp [pagingAllocPage, pfaAlloc, hfree], ?_⟩
      split <;> simp
  | cons f fs =>
      cases hpde : present (pdeAt s.mem s.cr3 i) with
      | true =>
          obtain ⟨s', hs', hfs, hnew⟩ := h.allocPage_present hi₀ hi hj ho hpde hfree
          exact .inl ⟨f, _, s', hs', hnew, by simp [hfs]⟩
      | false =>
          cases fs with
          | nil =>
              have hpop : Laid (Function.update own f .page) { s with free := [] } :=
                h.pop hfree (.inl rfl)
              have hstuck := hpop.core.mapPage_stuck (f := f) hi hj ho hpde rfl
              refine .inr ⟨?_, by simp⟩
              simp only [pagingAllocPage, pfaAlloc, hfree, Option.bind_eq_bind, Option.bind_some]
              exact hstuck
          | cons t fs =>
              obtain ⟨s', hs', hfs, hnew⟩ := h.allocPage_absent hi₀ hi hj ho hpde hfree
              exact .inl ⟨f, _, s', hs', hnew, by simp [hfs]⟩

end AllocPage

end SRos.Paging
