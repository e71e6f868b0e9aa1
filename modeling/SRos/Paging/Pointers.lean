import SRos.Lib.Traced
import SRos.Paging.Clone
import SRos.Paging.Stores

/-!
# The pointers of the clone

`paging_clone_directory` reads the tables in use through the window of the self-map, and all else
at physical addresses: the new directory, the new tables and the pages that it copies. The trace
of a call lists these addresses; that of a call that faults ends with the address of the fault.
-/

namespace SRos.Paging.Pointers

open Loop
open Traced (step attempt)

abbrev Cloner (α : Type) : Type := OptionT (Traced Nat) α

def write32 (a x : Nat) (s : Vm) : Cloner Vm := step a (s.write32 a x)

/-- One round of the loop of `memcpy`. -/
def copyByte (dst src : Nat) (s : Vm) (i : Nat) : Cloner Vm := do
  let b ← step (src + i) (s.read8 (src + i))
  step (dst + i) (s.write8 (dst + i) b)

def memcpy (dst src n : Nat) (s : Vm) : Cloner Vm := (List.range n).foldlM (copyByte dst src) s

def clearTable (v : Nat) (s : Vm) : Cloner Vm :=
  (List.range 1024).foldlM (fun s i => write32 (v + 4 * i) 0 s) s

def clonePte (keep : Nat → Bool) (pdIdx newPt : Nat) (s : Vm) (ptIdx : Nat) : Cloner Vm := do
  let oldPte ← attempt (s.read32 (selfMap pdIdx + 4 * ptIdx))
  if !present oldPte then return s
  else if keep (pageVaddr pdIdx ptIdx) then write32 (newPt + 4 * ptIdx) oldPte s
  else if user oldPte then
    let (newPage, s) ← attempt (pfaAlloc s)
    let s ← memcpy newPage (frameOf oldPte) 4096 s
    write32 (newPt + 4 * ptIdx) (frameOf newPage ||| flagsOf oldPte) s
  else write32 (newPt + 4 * ptIdx) oldPte s

def cloneTable (keep : Nat → Bool) (newPd pdIdx oldPde : Nat) (s : Vm) : Cloner Vm := do
  let (newPt, s) ← attempt (pfaAlloc s)
  let s ← clearTable newPt s
  let s ← (List.range 1024).foldlM (clonePte keep pdIdx newPt) s
  write32 (newPd + 4 * pdIdx) (frameOf newPt ||| flagsOf oldPde) s

def clonePde (kernelEnd newPd : Nat) (s : Vm) (pdIdx : Nat) : Cloner Vm := do
  let oldPde ← attempt (s.read32 (s.cr3 + 4 * pdIdx))
  if !present oldPde then write32 (newPd + 4 * pdIdx) 0 s
  else if pdIdx ≤ 1 then
    if ← attempt (hasUserPagesOutsideKernel kernelEnd pdIdx s) then
      cloneTable (inKernel kernelEnd) newPd pdIdx oldPde s
    else write32 (newPd + 4 * pdIdx) oldPde s
  else if user oldPde then cloneTable (fun v => v < 0x800000) newPd pdIdx oldPde s
  else write32 (newPd + 4 * pdIdx) oldPde s

def pagingCloneDirectory (bssEnd : Nat) (s : Vm) : Cloner (Nat × Vm) := do
  let (newPd, s) ← attempt (pfaAlloc s)
  let s ← (List.range 1023).foldlM (clonePde (kernelEndPage bssEnd) newPd) s
  let s ← write32 (newPd + 4 * 1023) (frameOf newPd ||| 0x03) s
  return (newPd, s)

/-! ## The clone without its trace -/

section Values

variable {keep : Nat → Bool} {kernelEnd newPd newPt pdIdx ptIdx oldPde : Nat} {s : Vm}

theorem value_memcpy (dst src n : Nat) (s : Vm) :
    (memcpy dst src n s).run.value = s.memcpy dst src n := by
  rw [memcpy, Traced.value_run_foldlM]
  simp only [copyByte, Traced.value_run_bind, Traced.value_step]
  rfl

theorem value_clearTable (v : Nat) (s : Vm) :
    (clearTable v s).run.value = Paging.clearTable v s := by
  rw [clearTable, Traced.value_run_foldlM]
  rfl

theorem value_clonePte :
    (clonePte keep pdIdx newPt s ptIdx).run.value = Paging.clonePte keep pdIdx newPt s ptIdx := by
  unfold clonePte Paging.clonePte
  rw [Traced.value_run_bind]
  refine congrArg _ (funext fun oldPte => ?_)
  split
  · rfl
  · split
    · rfl
    · split
      · rw [Traced.value_run_bind]
        refine congrArg _ (funext fun ⟨newPage, t⟩ => ?_)
        rw [Traced.value_run_bind, value_memcpy]
        rfl
      · rfl

theorem value_cloneTable : (cloneTable keep newPd pdIdx oldPde s).run.value =
    Paging.cloneTable keep newPd pdIdx oldPde s := by
  unfold cloneTable Paging.cloneTable
  rw [Traced.value_run_bind]
  refine congrArg _ (funext fun ⟨newPt, t⟩ => ?_)
  rw [Traced.value_run_bind, value_clearTable]
  refine congrArg _ (funext fun t => ?_)
  rw [Traced.value_run_bind, Traced.value_run_foldlM]
  simp only [value_clonePte]
  rfl

theorem value_clonePde :
    (clonePde kernelEnd newPd s pdIdx).run.value = Paging.clonePde kernelEnd newPd s pdIdx := by
  unfold clonePde Paging.clonePde
  rw [Traced.value_run_bind, Traced.value_attempt, Option.bind_eq_bind]
  refine Option.bind_congr fun oldPde _ => ?_
  split
  · rfl
  · split
    · rw [Traced.value_run_bind, Traced.value_attempt, Option.bind_eq_bind]
      refine Option.bind_congr fun found _ => ?_
      split
      · exact value_cloneTable
      · rfl
    · split
      · exact value_cloneTable
      · rfl

/-- The trace is that of the clone. -/
theorem value_pagingCloneDirectory (bssEnd : Nat) (s : Vm) :
    (pagingCloneDirectory bssEnd s).run.value = Paging.pagingCloneDirectory bssEnd s := by
  unfold pagingCloneDirectory Paging.pagingCloneDirectory
  rw [Traced.value_run_bind, Traced.value_attempt, Option.bind_eq_bind]
  refine Option.bind_congr fun ⟨newPd, t⟩ _ => ?_
  dsimp only
  rw [Traced.value_run_bind, Traced.value_run_foldlM, Option.bind_eq_bind]
  simp only [value_clonePde]
  refine Option.bind_congr fun t _ => ?_
  rw [Traced.value_run_bind]
  rfl

end Values

/-! ## Pointers to mapped memory -/

/-- The address is in the first 4 MB, and the current directory maps it to itself. -/
def MappedLow (s : Vm) (a : Nat) : Prop := a < 0x400000 ∧ s.translate a = some a

/-- The free frames are in the first 4 MB. -/
structure LowFrames (s : Vm) : Prop extends Regular s where
  frames : ∀ f ∈ s.free, ∀ o < 4096, MappedLow s (f + o)

/-- The user pages that a fork copies are there, too. -/
structure Forkable (s : Vm) : Prop extends LowFrames s where
  pages : ∀ i < 1023, ∀ j < 1024, mapped s.mem s.cr3 i j = true → user (pteAt s.mem s.cr3 i j) = true →
    (i ≤ 1 ∨ user (pdeAt s.mem s.cr3 i) = true) →
    ∀ o < 4096, MappedLow s (frameOf (pteAt s.mem s.cr3 i j) + o)

/-- During the clone only free frames are written. -/
structure Cloning (s₀ s : Vm) : Prop where
  same : SameTables s₀ s
  free : s.free.Sublist s₀.free

section Cloning

variable {s₀ s : Vm} {f i j o : Nat}

theorem Cloning.translate (h : Cloning s₀ s) (h₀ : Regular s₀) {a : Nat} (ha : MappedLow s₀ a) :
    s.translate a = some a := by
  obtain ⟨hlow, hself⟩ := ha
  rw [h.same.translate h₀.dir (by omega), hself]

theorem Cloning.pop (h : Cloning s₀ s) {s' : Vm} (halloc : pfaAlloc s = some (f, s')) :
    f ∈ s₀.free ∧ Cloning s₀ s' := by
  obtain ⟨fs, hfree, rfl⟩ := pfaAlloc_some halloc
  have hsub := h.free
  rw [hfree] at hsub
  refine ⟨hsub.subset (by simp), ⟨h.same.cr3, h.same.pde, h.same.pte⟩, ?_⟩
  exact (List.sublist_cons_self _ _).trans hsub

theorem Cloning.stored (h : Cloning s₀ s) (h₀ : Regular s₀) (hf : f ∈ s₀.free) {m : Nat → UInt8}
    (hm : AgreeOff [f] s.mem m) : Cloning s₀ { s with mem := m } := by
  obtain ⟨hframe, hunused⟩ := h₀.unused f hf
  have haligned := (frameOf_frame f).1
  rw [hframe] at haligned
  have hregular := h.same.regular h₀ h.free
  exact ⟨h.same.trans (hregular.stored haligned (h.same.unused hunused) hm), h.free⟩

theorem Cloning.write32 (h : Cloning s₀ s) (h₀ : LowFrames s₀) (hf : f ∈ s₀.free) (ho : o + 4 ≤ 4096)
    (x : Nat) : Traced.Meets (MappedLow s₀) (write32 (f + o) x s) (Cloning s₀) := by
  have hlow := h₀.frames f hf o (by omega)
  refine .step hlow fun t ht => ?_
  rw [Vm.write32, h.translate h₀.toRegular hlow] at ht
  obtain rfl := Option.some.inj ht
  exact h.stored h₀.toRegular hf (.store32 (by simp) ho)

theorem Cloning.copyByte (h : Cloning s₀ s) (h₀ : LowFrames s₀) (hf : f ∈ s₀.free) {g : Nat}
    (hg : ∀ o < 4096, MappedLow s₀ (g + o)) (ho : o < 4096) :
    Traced.Meets (MappedLow s₀) (copyByte f g s o) (Cloning s₀) := by
  have hlow := h₀.frames f hf o ho
  refine .bind (.step (hg o ho) fun _ _ => trivial) fun b _ => .step hlow fun t ht => ?_
  rw [Vm.write8, h.translate h₀.toRegular hlow] at ht
  obtain rfl := Option.some.inj ht
  refine h.stored h₀.toRegular hf fun a ha => ?_
  have hne : a ≠ f + o := by
    have hout := ha f (by simp)
    omega
  exact Function.update_of_ne hne b s.mem

theorem Cloning.memcpy (h : Cloning s₀ s) (h₀ : LowFrames s₀) (hf : f ∈ s₀.free) {g : Nat}
    (hg : ∀ o < 4096, MappedLow s₀ (g + o)) :
    Traced.Meets (MappedLow s₀) (memcpy f g 4096 s) (Cloning s₀) :=
  .foldlM h fun _ _ ho ht => ht.copyByte h₀ hf hg (List.mem_range.mp ho)

theorem Cloning.clearTable (h : Cloning s₀ s) (h₀ : LowFrames s₀) (hf : f ∈ s₀.free) :
    Traced.Meets (MappedLow s₀) (clearTable f s) (Cloning s₀) :=
  .foldlM h fun _ i hi ht => ht.write32 h₀ hf (by have hlt := List.mem_range.mp hi; omega) 0

/-- An entry of the directory in use. -/
theorem Cloning.readPde (h : Cloning s₀ s) (h₀ : LowFrames s₀) (hi : i < 1024) :
    s.read32 (s.cr3 + 4 * i) = some (pdeAt s₀.mem s₀.cr3 i) := by
  have haligned := h₀.aligned
  rw [Vm.read32, h.same.cr3, h.same.translate h₀.dir (by omega), h₀.ident (4 * i) (by omega),
    Option.map_some]
  exact congrArg some (h.same.pde i hi)

/-- An entry of a table in use, through the window. -/
theorem Cloning.readPte (h : Cloning s₀ s) (h₀ : LowFrames s₀) (hi : i < 1023) (hj : j < 1024)
    (hpde : present (pdeAt s₀.mem s₀.cr3 i) = true) :
    s.read32 (selfMap i + 4 * j) = some (pteAt s₀.mem s₀.cr3 i j) := by
  have hwindow := translate_window h₀.dir h₀.self (o := 4 * j) (show i < 1024 by omega) (by omega) hpde
  have hpte := h.same.pte i (by omega) j hj hpde
  rw [pteAt, h.same.pde i (by omega)] at hpte
  rw [Vm.read32, h.same.translate h₀.dir (by unfold selfMap; omega), hwindow, Option.map_some]
  exact congrArg some hpte

theorem Cloning.clonePte (h : Cloning s₀ s) (h₀ : Forkable s₀) {keep : Nat → Bool} {newPt : Nat}
    (ht : newPt ∈ s₀.free) (hi : i < 1023) (hj : j < 1024)
    (hpde : present (pdeAt s₀.mem s₀.cr3 i) = true)
    (huser : i ≤ 1 ∨ user (pdeAt s₀.mem s₀.cr3 i) = true) :
    Traced.Meets (MappedLow s₀) (clonePte keep i newPt s j) (Cloning s₀) := by
  refine .bind (.attempt fun x hx =>
    Option.some.inj (hx.symm.trans (h.readPte h₀.toLowFrames hi hj hpde))) ?_
  rintro _ rfl
  have hentry : 4 * j + 4 ≤ 4096 := by omega
  split
  · exact .pure h
  · next hpresent =>
      split
      · exact h.write32 h₀.toLowFrames ht hentry _
      · split
        · next hpage =>
            have hmapped : mapped s₀.mem s₀.cr3 i j = true :=
              mapped_iff.mpr ⟨hpde, by simpa using hpresent⟩
            refine .bind (.attempt fun _ halloc => h.pop halloc) fun ⟨g, s₁⟩ hpop => ?_
            refine .bind (hpop.2.memcpy h₀.toLowFrames hpop.1 (h₀.pages i hi j hj hmapped hpage huser))
              fun s₂ hs₂ => ?_
            exact hs₂.write32 h₀.toLowFrames ht hentry _
        · exact h.write32 h₀.toLowFrames ht hentry _

theorem Cloning.cloneTable (h : Cloning s₀ s) (h₀ : Forkable s₀) {keep : Nat → Bool} {newPd : Nat}
    (hd : newPd ∈ s₀.free) (hi : i < 1023) (hpde : present (pdeAt s₀.mem s₀.cr3 i) = true)
    (huser : i ≤ 1 ∨ user (pdeAt s₀.mem s₀.cr3 i) = true) (oldPde : Nat) :
    Traced.Meets (MappedLow s₀) (cloneTable keep newPd i oldPde s) (Cloning s₀) := by
  refine .bind (.attempt fun _ halloc => h.pop halloc) fun ⟨t, s₁⟩ hpop => ?_
  refine .bind (hpop.2.clearTable h₀.toLowFrames hpop.1) fun s₂ hs₂ => ?_
  refine .bind (.foldlM hs₂ fun _ j hj hs =>
    hs.clonePte h₀ hpop.1 hi (List.mem_range.mp hj) hpde huser) fun s₃ hs₃ => ?_
  exact hs₃.write32 h₀.toLowFrames hd (by omega) _

theorem Cloning.clonePde (h : Cloning s₀ s) (h₀ : Forkable s₀) (kernelEnd : Nat) {newPd : Nat}
    (hd : newPd ∈ s₀.free) (hi : i < 1023) :
    Traced.Meets (MappedLow s₀) (clonePde kernelEnd newPd s i) (Cloning s₀) := by
  refine .bind (.attempt fun x hx =>
    Option.some.inj (hx.symm.trans (h.readPde h₀.toLowFrames (by omega)))) ?_
  rintro _ rfl
  have hentry : 4 * i + 4 ≤ 4096 := by omega
  split
  · exact h.write32 h₀.toLowFrames hd hentry _
  · next hpresent =>
      have hpde : present (pdeAt s₀.mem s₀.cr3 i) = true := by simpa using hpresent
      split
      · next hlow =>
          refine .bind (.attempt fun _ _ => trivial) fun found _ => ?_
          split
          · exact h.cloneTable h₀ hd hi hpde (.inl hlow) _
          · exact h.write32 h₀.toLowFrames hd hentry _
      · split
        · next huser => exact h.cloneTable h₀ hd hi hpde (.inr huser) _
        · exact h.write32 h₀.toLowFrames hd hentry _

end Cloning

/-- A fork from such an address space uses no other pointers. -/
theorem Forkable.pointers {s : Vm} (h : Forkable s) (bssEnd : Nat) :
    (pagingCloneDirectory bssEnd s).run.Within (MappedLow s) := by
  have hclone : Traced.Meets (MappedLow s) (pagingCloneDirectory bssEnd s) fun _ => True := by
    have hstart : Cloning s s := ⟨.refl s, List.Sublist.refl _⟩
    refine .bind (.attempt fun _ halloc => hstart.pop halloc) fun ⟨d, s₁⟩ hpop => ?_
    refine .bind (.foldlM hpop.2 fun _ i hi hs =>
      hs.clonePde h _ hpop.1 (List.mem_range.mp hi)) fun s₂ hs₂ => ?_
    exact .bind (hs₂.write32 h.toLowFrames hpop.1 (by decide) _) fun _ _ => .pure trivial
  exact hclone.1

/-! ## The first page that is copied -/

section Reached

variable {s₀ s : Vm} {i j f o newPd newPt kernelEnd : Nat} {keep : Nat → Bool}

theorem Cloning.writes (h : Cloning s₀ s) (h₀ : LowFrames s₀) (hf : f ∈ s₀.free) (ho : o + 4 ≤ 4096)
    (x : Nat) : ∃ s', s.write32 (f + o) x = some s' ∧ Cloning s₀ s' ∧ s'.free = s.free := by
  refine ⟨{ s with mem := Bytes.store32 s.mem (f + o) x }, ?_,
    h.stored h₀.toRegular hf (.store32 (List.mem_singleton_self f) ho), rfl⟩
  rw [Vm.write32, h.translate h₀.toRegular (h₀.frames f hf o (by omega)), Option.map_some]

theorem Cloning.clears (h : Cloning s₀ s) (h₀ : LowFrames s₀) (hf : f ∈ s₀.free) :
    ∃ s', Paging.clearTable f s = some s' ∧ Cloning s₀ s' ∧ s'.free = s.free := by
  refine foldlM_range (fun _ t => Cloning s₀ t ∧ t.free = s.free) ⟨h, rfl⟩ ?_
  rintro k t hk ⟨ht, hfree⟩
  obtain ⟨t', ht', hcloning, hfree'⟩ := ht.writes h₀ hf (show 4 * k + 4 ≤ 4096 by omega) 0
  exact ⟨t', ht', hcloning, hfree'.trans hfree⟩

/-- A round that shares its page takes no frame. -/
theorem Cloning.shares (h : Cloning s₀ s) (h₀ : LowFrames s₀) (ht : newPt ∈ s₀.free) (hi : i < 1023)
    (hj : j < 1024) (hpde : present (pdeAt s₀.mem s₀.cr3 i) = true)
    (hshared : copies keep s₀ i j = false) :
    ∃ s', Paging.clonePte keep i newPt s j = some s' ∧ Cloning s₀ s' ∧ s'.free = s.free := by
  have hwrite := h.writes h₀ ht (show 4 * j + 4 ≤ 4096 by omega) (pteAt s₀.mem s₀.cr3 i j)
  unfold Paging.clonePte
  rw [h.readPte h₀ hi hj hpde, Option.bind_eq_bind, Option.bind_some]
  unfold copies at hshared
  cases hpresent : present (pteAt s₀.mem s₀.cr3 i j) with
  | false => exact ⟨s, rfl, h, rfl⟩
  | true =>
      rw [if_neg (by simp)]
      split
      · exact hwrite
      · next hkeep =>
          rw [hpresent, Bool.eq_false_of_not_eq_true hkeep] at hshared
          rw [if_neg (by simpa using hshared)]
          exact hwrite

/-- So does a round that shares its table. -/
theorem Cloning.shallow (h : Cloning s₀ s) (h₀ : LowFrames s₀) (hd : newPd ∈ s₀.free) (hi : i < 1023)
    (hshallow : deep kernelEnd s₀ i = false) :
    ∃ s', Paging.clonePde kernelEnd newPd s i = some s' ∧ Cloning s₀ s' ∧ s'.free = s.free := by
  have hwrite := h.writes h₀ hd (show 4 * i + 4 ≤ 4096 by omega)
  unfold Paging.clonePde
  rw [h.readPde h₀ (by omega), Option.bind_eq_bind, Option.bind_some]
  unfold deep at hshallow
  cases hpde : present (pdeAt s₀.mem s₀.cr3 i) with
  | false => exact hwrite 0
  | true =>
      rw [hpde, Bool.true_and] at hshallow
      rw [if_neg (by simp)]
      split
      · next hlow =>
          rw [if_pos hlow] at hshallow
          have hscan : hasUserPagesOutsideKernel kernelEnd i s = some false := by
            rw [← hshallow]
            apply anyM_of_forall
            intro l hl
            rw [h.readPte h₀ hi (List.mem_range.mp hl) hpde]
            rfl
          rw [hscan]
          exact hwrite _
      · next hlow =>
          rw [if_neg hlow] at hshallow
          rw [if_neg (by simp [hshallow])]
          exact hwrite _

/-- The round that copies a page reads it. -/
theorem Cloning.copy_traced (h : Cloning s₀ s) (h₀ : LowFrames s₀) (hi : i < 1023) (hj : j < 1024)
    (hpde : present (pdeAt s₀.mem s₀.cr3 i) = true) (hcopy : copies keep s₀ i j = true)
    (hroom : s.free ≠ []) :
    frameOf (pteAt s₀.mem s₀.cr3 i j) ∈ (Pointers.clonePte keep i newPt s j).run.trace := by
  obtain ⟨g, fs, hfree⟩ := List.exists_cons_of_ne_nil hroom
  obtain ⟨⟨hpresent, hkeep⟩, huser⟩ :
      (present (pteAt s₀.mem s₀.cr3 i j) = true ∧ keep (pageVaddr i j) = false) ∧
        user (pteAt s₀.mem s₀.cr3 i j) = true := by
    simpa [copies] using hcopy
  have halloc : pfaAlloc s = some (g, { s with free := fs }) := by rw [pfaAlloc, hfree]
  unfold Pointers.clonePte
  rw [Traced.mem_trace_run_bind]
  refine .inr ⟨_, h.readPte h₀ hi hj hpde, ?_⟩
  rw [if_neg (by simp [hpresent]), if_neg (by simp [hkeep]), if_pos huser, Traced.mem_trace_run_bind]
  refine .inr ⟨_, halloc, ?_⟩
  dsimp only
  rw [Traced.mem_trace_run_bind]
  refine .inl (Traced.mem_trace_foldlM_range (k := 0) (by decide) rfl ?_)
  rw [Pointers.copyByte, Traced.mem_trace_run_bind]
  exact .inl (List.mem_singleton.mpr rfl)

/-- A table that is copied is read up to its first page that is not shared. -/
theorem Cloning.table_traced (h : Cloning s₀ s) (h₀ : LowFrames s₀) (hi : i < 1023) (hj : j < 1024)
    (hpde : present (pdeAt s₀.mem s₀.cr3 i) = true) (hcopy : copies keep s₀ i j = true)
    (hfirst : ∀ l < j, copies keep s₀ i l = false) (hroom : 2 ≤ s.free.length) (oldPde : Nat) :
    frameOf (pteAt s₀.mem s₀.cr3 i j) ∈ (Pointers.cloneTable keep newPd i oldPde s).run.trace := by
  obtain ⟨t, fs, hfree⟩ := List.exists_cons_of_length_pos (show 0 < s.free.length by omega)
  have halloc : pfaAlloc s = some (t, { s with free := fs }) := by rw [pfaAlloc, hfree]
  obtain ⟨ht, hpop⟩ := h.pop halloc
  obtain ⟨s₁, hclear, hs₁, hfree₁⟩ := hpop.clears h₀ ht
  obtain ⟨s₂, hloop, hs₂, hfree₂⟩ := @foldlM_range _ (Paging.clonePte keep i t) j s₁
    (fun _ u => Cloning s₀ u ∧ u.free = fs) ⟨hs₁, hfree₁⟩ (by
    rintro l u hl ⟨hu, hufree⟩
    obtain ⟨u', hu', hcloning, hufree'⟩ := hu.shares h₀ ht hi (by omega) hpde (hfirst l hl)
    exact ⟨u', hu', hcloning, hufree'.trans hufree⟩)
  have hrest : s₂.free ≠ [] := by
    rintro hnil
    rw [hfree₂] at hnil
    simp [hfree, hnil] at hroom
  rw [Pointers.cloneTable, Traced.mem_trace_run_bind]
  refine .inr ⟨_, halloc, ?_⟩
  dsimp only
  rw [Traced.mem_trace_run_bind, value_clearTable]
  refine .inr ⟨s₁, hclear, ?_⟩
  rw [Traced.mem_trace_run_bind]
  refine .inl (Traced.mem_trace_foldlM_range hj ?_ (hs₂.copy_traced h₀ hi hj hpde hcopy hrest))
  rw [Traced.value_run_foldlM]
  simp only [value_clonePte]
  exact hloop

/-- The clone reads the first page that it does not share. -/
theorem LowFrames.first_copy_traced {bssEnd : Nat} (h₀ : LowFrames s₀) (hi : i < 1023) (hj : j < 1024)
    (hshallow : ∀ k < i, deep (kernelEndPage bssEnd) s₀ k = false)
    (hdeep : deep (kernelEndPage bssEnd) s₀ i = true)
    (hcopy : copies (keepOf (kernelEndPage bssEnd) i) s₀ i j = true)
    (hfirst : ∀ l < j, copies (keepOf (kernelEndPage bssEnd) i) s₀ i l = false)
    (hroom : 3 ≤ s₀.free.length) :
    frameOf (pteAt s₀.mem s₀.cr3 i j) ∈ (pagingCloneDirectory bssEnd s₀).run.trace := by
  obtain ⟨d, fs, hfree⟩ := List.exists_cons_of_length_pos (show 0 < s₀.free.length by omega)
  have halloc : pfaAlloc s₀ = some (d, { s₀ with free := fs }) := by rw [pfaAlloc, hfree]
  have hstart : Cloning s₀ s₀ := ⟨.refl s₀, List.Sublist.refl _⟩
  obtain ⟨hd, hpop⟩ := hstart.pop halloc
  obtain ⟨s₁, hloop, hs₁, hfree₁⟩ := @foldlM_range _ (Paging.clonePde (kernelEndPage bssEnd) d) i
    { s₀ with free := fs } (fun _ u => Cloning s₀ u ∧ u.free = fs) ⟨hpop, rfl⟩ (by
    rintro k u hk ⟨hu, hufree⟩
    obtain ⟨u', hu', hcloning, hufree'⟩ := hu.shallow h₀ hd (by omega) (hshallow k hk)
    exact ⟨u', hu', hcloning, hufree'.trans hufree⟩)
  have hrest : 2 ≤ s₁.free.length := by
    rw [hfree, List.length_cons] at hroom
    rw [hfree₁]
    omega
  rw [pagingCloneDirectory, Traced.mem_trace_run_bind]
  refine .inr ⟨_, halloc, ?_⟩
  dsimp only
  rw [Traced.mem_trace_run_bind]
  refine .inl (Traced.mem_trace_foldlM_range (b := s₁) hi ?_ ?_)
  · rw [Traced.value_run_foldlM]
    simp only [value_clonePde]
    exact hloop
  · unfold deep at hdeep
    obtain ⟨hpde, hdeep⟩ := Bool.and_eq_true_iff.mp hdeep
    rw [Pointers.clonePde, Traced.mem_trace_run_bind]
    refine .inr ⟨_, hs₁.readPde h₀ (by omega), ?_⟩
    rw [if_neg (by simp [hpde])]
    unfold keepOf at hcopy hfirst
    split
    · next hlow =>
        rw [if_pos hlow] at hdeep hcopy
        simp only [if_pos hlow] at hfirst
        have hscan : hasUserPagesOutsideKernel (kernelEndPage bssEnd) i s₁ = some true := by
          rw [← hdeep]
          apply anyM_of_forall
          intro l hl
          rw [hs₁.readPte h₀ hi (List.mem_range.mp hl) hpde]
          rfl
        rw [Traced.mem_trace_run_bind]
        refine .inr ⟨_, Traced.value_attempt.trans hscan, ?_⟩
        rw [if_pos rfl]
        exact hs₁.table_traced h₀ hi hj hpde hcopy hfirst hrest _
    · next hlow =>
        rw [if_neg hlow] at hdeep hcopy
        simp only [if_neg hlow] at hfirst
        rw [if_pos hdeep]
        exact hs₁.table_traced h₀ hi hj hpde hcopy hfirst hrest _

end Reached

end SRos.Paging.Pointers
