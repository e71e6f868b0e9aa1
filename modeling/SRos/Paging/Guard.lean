import SRos.Paging.Alloc
import SRos.Paging.Stores

/-!
# The kernel's part of an address space

The first and the last entry of the directory and the page table of the first 4 MB. Pages between
4 MB and the window can be mapped and written without a change to these, as long as none of them
is mapped to the directory, to a page table or to a free frame.
-/

namespace SRos.Paging

open Bytes

/-- No page between 4 MB and the window leads to the frames that the translation depends on. -/
structure Guarded (s : Vm) : Prop extends Regular s where
  low : s.cr3 < lowEnd
  safe : ∀ i, 1 ≤ i → i < 1023 → ∀ j < 1024, mapped s.mem s.cr3 i j = true →
    frameOf (pteAt s.mem s.cr3 i j) ∉ s.free ∧ Unused s (frameOf (pteAt s.mem s.cr3 i j))

/-- The entries of the kernel are as they were. -/
structure KernelKept (s s' : Vm) : Prop where
  cr3 : s'.cr3 = s.cr3
  first : pdeAt s'.mem s.cr3 0 = pdeAt s.mem s.cr3 0
  window : pdeAt s'.mem s.cr3 1023 = pdeAt s.mem s.cr3 1023
  entries : ∀ j < 1024, pteAt s'.mem s.cr3 0 j = pteAt s.mem s.cr3 0 j

theorem KernelKept.refl (s : Vm) : KernelKept s s := ⟨rfl, rfl, rfl, fun _ _ => rfl⟩

theorem KernelKept.trans {s t u : Vm} (h : KernelKept s t) (h' : KernelKept t u) :
    KernelKept s u := by
  obtain ⟨hcr3, hfirst, hwindow, hentries⟩ := h'
  rw [h.cr3] at hcr3 hfirst hwindow hentries
  exact ⟨hcr3, hfirst.trans h.first, hwindow.trans h.window,
    fun j hj => (hentries j hj).trans (h.entries j hj)⟩

section Guarded

variable {s s' : Vm} {v p flags f : Nat} {fs : List Nat}

/-- The directory is reached through the first entry. -/
theorem Guarded.first (h : Guarded s) : present (pdeAt s.mem s.cr3 0) = true := by
  have hlow := h.low
  unfold lowEnd at hlow
  have hident := h.ident 0 (by omega)
  have hsplit := @translate_split s 0 (s.cr3 / 4096) 0 h.dir (by omega) (by omega)
  have haligned := h.aligned.1
  rw [show 0 * 2 ^ 22 + s.cr3 / 4096 * 2 ^ 12 + 0 = s.cr3 + 0 by omega, hident] at hsplit
  split at hsplit
  · next hmapped => exact (mapped_iff.mp hmapped).1
  · cases hsplit

/-- Mapping a page above 4 MB to a frame outside the tables. -/
theorem Guarded.mapPage (h : Guarded s) (hlow : 0x400000 ≤ v) (hv : v < 0xFFC00000)
    (hfree : frameOf p ∉ s.free) (hp : Unused s (frameOf p))
    (hs : pagingMapPage v p flags s = some s') : Guarded s' ∧ KernelKept s s' := by
  have hinstalled := h.installed hv hs
  have hcr3 := hinstalled.cr3
  have hdir := h.low
  unfold lowEnd at hdir
  have hregular := h.toRegular.step (by omega) hv (by omega) hs
  refine ⟨⟨hregular, by rw [hcr3]; exact h.low, ?_⟩, hcr3, ?_, ?_, ?_⟩
  · intro k hk₀ hk l hl hmapped
    rw [hcr3] at hmapped ⊢
    obtain ⟨hpde, hpte⟩ := mapped_iff.mp hmapped
    by_cases hkl : k = v / 2 ^ 22 ∧ l = v / 2 ^ 12 % 1024
    · rw [hkl.1, hkl.2, hinstalled.pte, (isEntry_map p flags).frame]
      exact h.toRegular.unused_kept hv hs hfree hp
    · rcases h.pde hv hs (show k < 1024 by omega) hpde with ⟨hold, -⟩ | ⟨rfl, habsent, -, -⟩
      · rw [hinstalled.pte_other k hk l hl hkl hold] at hpte ⊢
        obtain ⟨hfree', hunused⟩ := h.safe k hk₀ hk l hl (mapped_iff.mpr ⟨hold, hpte⟩)
        exact h.toRegular.unused_kept hv hs hfree' hunused
      · -- the other pages of a new table are empty
        rw [hinstalled.pte_new habsent l hl (by simpa using hkl)] at hpte
        cases hpte
  · exact hinstalled.pde_other 0 (by omega) (by omega)
  · exact hinstalled.pde_other 1023 (by omega) (by omega)
  · exact fun j hj => hinstalled.pte_other 0 (by omega) j hj (by omega) h.first

/-- The page of `v` has been mapped to the free frame `f`, and no other page has changed. -/
structure MapsFresh (s : Vm) (v f : Nat) (s' : Vm) : Prop where
  frame : f ∈ s.free
  maps : ∀ w, w / 4096 = v / 4096 → s'.translate w = some (f + w % 4096)
  others : ∀ w < 0xFFC00000, w / 4096 ≠ v / 4096 → s'.translate w = s.translate w
  free : ∀ g ∈ s'.free, g ∈ s.free
  unused : ∀ g, g ∉ s.free → Unused s g → Unused s' g
  mem : ∀ g, g % 4096 = 0 → g ∉ s.free → Unused s g → ∀ o < 4096, s'.mem (g + o) = s.mem (g + o)

/-- `paging_alloc_page` for a page above 4 MB. -/
theorem Guarded.allocPage (h : Guarded s) (hlow : 0x400000 ≤ v) (hv : v < 0xFFC00000)
    (hs : pagingAllocPage v s = some s') :
    Guarded s' ∧ KernelKept s s' ∧ ∃ f, MapsFresh s v f s' := by
  unfold pagingAllocPage pfaAlloc at hs
  cases hfree : s.free with
  | nil =>
      rw [hfree] at hs
      cases hs
  | cons f fs =>
      rw [hfree] at hs
      obtain ⟨hframe, hunused⟩ := h.unused f (by simp [hfree])
      obtain ⟨hregular, hnot⟩ := h.toRegular.pop hfree
      have hpop : Guarded { s with free := fs } := by
        refine ⟨hregular, h.low, ?_⟩
        intro i hi₀ hi j hj hmapped
        obtain ⟨hout, hpage⟩ := h.safe i hi₀ hi j hj hmapped
        exact ⟨fun hmem => hout (by simp [hfree, hmem]), hpage⟩
      have hsub : ∀ g, g ∉ s.free → g ∉ fs := fun g hg hmem => hg (by simp [hfree, hmem])
      obtain ⟨hguarded, hkept⟩ := hpop.mapPage hlow hv (by rwa [hframe]) (by rwa [hframe]) hs
      have hinstalled := hregular.installed hv hs
      refine ⟨hguarded, ⟨hkept.cr3, hkept.first, hkept.window, hkept.entries⟩, f, by simp [hfree],
        ?_, ?_, ?_, ?_, ?_⟩
      · intro w hw
        have hmask : w &&& 0xFFF = w % 4096 := Nat.and_two_pow_sub_one_eq_mod _ 12
        rw [translate_walk, hregular.walk_mapPage hv hs (by omega), if_pos hw, Option.map_some,
          hframe, hmask]
      · intro w hw hne
        rw [translate_walk, hregular.walk_mapPage hv hs hw, if_neg hne, translate_walk]
        rfl
      · intro g hg
        rw [hinstalled.free] at hg
        split at hg
        · simp [hfree, show g ∈ fs from hg]
        · simp [hfree, show g ∈ fs from List.mem_of_mem_tail hg]
      · exact fun g hg hg' => (hregular.unused_kept hv hs (hsub g hg) hg').2
      · exact fun g hg hg' hunused' o ho => hregular.mapPage_mem hv hs hg (hsub g hg') hunused' ho

/-- Memory outside the directory and its tables is written. -/
theorem Guarded.stored (h : Guarded s) {m : Nat → UInt8} (hm : SameTables s { s with mem := m }) :
    Guarded { s with mem := m } ∧ KernelKept s { s with mem := m } := by
  refine ⟨⟨hm.regular h.toRegular (List.Sublist.refl _), h.low, ?_⟩, ⟨rfl, hm.pde 0 (by omega),
    hm.pde 1023 (by omega), fun j hj => hm.pte 0 (by omega) j hj h.first⟩⟩
  intro i hi₀ hi j hj hmapped
  dsimp only at hmapped ⊢
  obtain ⟨hpresent, hpage⟩ := mapped_iff.mp hmapped
  rw [hm.pde i (by omega)] at hpresent
  rw [hm.pte i (by omega) j hj hpresent] at hpage ⊢
  obtain ⟨hfree, hsafe⟩ := h.safe i hi₀ hi j hj (mapped_iff.mpr ⟨hpresent, hpage⟩)
  exact ⟨hfree, hm.unused hsafe⟩

/-- A page between 4 MB and the window is not mapped to a free frame or to a table. -/
theorem Guarded.translate (h : Guarded s) (hlow : 0x400000 ≤ v) (hv : v < 0xFFC00000) {a : Nat}
    (ha : s.translate v = some a) :
    ∃ g, g % 4096 = 0 ∧ g ∉ s.free ∧ Unused s g ∧ a = g + v % 4096 := by
  rw [vaddr_eq v, translate_split h.dir (by omega) (by omega)] at ha
  split at ha
  · next hmapped =>
      obtain ⟨hfree, hunused⟩ := h.safe _ (by omega) (by omega) _ (by omega) hmapped
      exact ⟨_, (frameOf_frame _).1, hfree, hunused, (Option.some.inj ha).symm⟩
  · cases ha

/-- A byte of a page above 4 MB is stored. -/
theorem Guarded.write8 (h : Guarded s) (hlow : 0x400000 ≤ v) (hv : v < 0xFFC00000) {b : UInt8}
    (hs : s.write8 v b = some s') : Guarded s' ∧ KernelKept s s' ∧
      (∀ w < 0xFFC00000, s'.translate w = s.translate w) ∧ (∀ g, Unused s g → Unused s' g) ∧
      ∃ a, s.translate v = some a ∧ s' = { s with mem := Function.update s.mem a b } := by
  obtain ⟨a, ha, rfl⟩ := Option.map_eq_some_iff.mp hs
  obtain ⟨g, haligned, -, hunused, rfl⟩ := h.translate hlow hv ha
  have hsame := h.stored8 haligned hunused (Nat.mod_lt v (by decide)) b
  obtain ⟨hguarded, hkept⟩ := h.stored hsame
  exact ⟨hguarded, hkept, fun w hw => hsame.translate h.dir (by omega), fun g => hsame.unused, _, ha,
    rfl⟩

end Guarded

/-! ## Laid out address spaces are guarded -/

section Laid

variable {own : Nat → Kind} {s : Vm} {f : Nat}

/-- What the entries of the current directory refer to. -/
theorem Laid.entry_kind (h : Laid own s) {n : Nat} (hn : own s.cr3 = .dir n) {i : Nat} (hi : i < 1024)
    (hpresent : present (pdeAt s.mem s.cr3 i) = true) :
    own (frameOf (pdeAt s.mem s.cr3 i)) =
      if i = 0 then .idTable else if i = 1023 then .dir n else .table := by
  split
  · next hzero => rw [hzero, h.core.first.2, h.id]
  · next hzero =>
      split
      · next hlast => rw [hlast, h.core.self, (kernelEntry h.core.dir.1 h.core.dir.lt).2, hn]
      · next hlast => exact h.entries _ n hn i (by omega) (by omega) hpresent

theorem Laid.unused (h : Laid own s) (hf : (own f).structural = false) : Unused s f := by
  obtain ⟨n, hn⟩ := h.cr3
  intro i hi hpresent heq
  have hkind := h.entry_kind hn hi hpresent
  rw [heq] at hkind
  rw [hkind] at hf
  split_ifs at hf <;> cases hf

theorem Laid.guarded (h : Laid own s) : Guarded s := by
  obtain ⟨k, hk⟩ := h.cr3
  have hcore := h.core
  have hself := kernelEntry hcore.dir.1 hcore.dir.lt
  rw [← hcore.self] at hself
  refine ⟨⟨⟨hcore.cr3_frame, hself, ?_, ?_⟩, h.stacked.nodup, ?_⟩, hcore.dir.2, ?_⟩
  · intro i hi i' hi' hp hp' heq
    have hkind := h.entry_kind hk hi hp
    have hkind' := h.entry_kind hk hi' hp'
    rw [heq, hkind'] at hkind
    by_cases hmiddle : (1 ≤ i ∧ i < 1023) ∧ 1 ≤ i' ∧ i' < 1023
    · exact h.distinct _ k hk i i' hmiddle.1.1 hmiddle.1.2 hmiddle.2.1 hmiddle.2.2 hp hp' heq
    · split_ifs at hkind <;> omega
  · intro o ho
    have halign := hcore.dir
    unfold IsFrame lowEnd at halign
    exact hcore.low (by unfold lowEnd; omega)
  · intro f hf
    have hfree := h.free_of_mem hf
    exact ⟨(h.isFrame (by simp [hfree])).self, h.unused (by simp [hfree, Kind.structural])⟩
  · intro i hi₀ hi j hj hmapped
    obtain ⟨hpde, hpte⟩ := mapped_iff.mp hmapped
    have hpage := h.targets _ (h.entries _ k hk i hi₀ hi hpde) j hj hpte
    change own (frameOf (pteAt s.mem s.cr3 i j)) = .page at hpage
    exact ⟨fun hmem => by simp [h.free_of_mem hmem] at hpage,
      h.unused (by simp [hpage, Kind.structural])⟩

end Laid

end SRos.Paging
