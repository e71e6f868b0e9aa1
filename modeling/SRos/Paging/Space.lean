import Mathlib.Data.List.Nodup
import SRos.Paging.Clone

/-!
# The copied address space

What a process finds in the directory that `paging_clone_directory` returns. The image of the
kernel has to end below 8 MB: there the tests of the source for shared pages are only about the
first two entries.
-/

namespace SRos.Paging

open Bytes

/-- The clone has a copy of the page, if it is mapped, and shares its frame otherwise. -/
def ownPage (bssEnd : Nat) (s : Vm) (i j : Nat) : Bool :=
  (decide (i ≤ 1) || user (pdeAt s.mem s.cr3 i)) && user (pteAt s.mem s.cr3 i j) &&
    !inKernel (kernelEndPage bssEnd) (pageVaddr i j)

/-- The directory `new` is an exact copy of the address space of `s`, with the frames `popped`
for its tables and pages. -/
structure IsClone (bssEnd : Nat) (s : Vm) (new : Nat) (popped : List Nat) (s' : Vm) : Prop where
  pops : s.free = new :: popped ++ s'.free
  cr3 : s'.cr3 = s.cr3
  maps : ∀ i j, i < 1023 → j < 1024 → mapped s'.mem new i j = mapped s.mem s.cr3 i j
  flags : ∀ i j, i < 1023 → j < 1024 → mapped s.mem s.cr3 i j = true →
    flagsOf (pdeAt s'.mem new i) = flagsOf (pdeAt s.mem s.cr3 i) ∧
      flagsOf (pteAt s'.mem new i j) = flagsOf (pteAt s.mem s.cr3 i j)
  copied : ∀ i j, i < 1023 → j < 1024 → mapped s.mem s.cr3 i j = true →
    ownPage bssEnd s i j = true → frameOf (pteAt s'.mem new i j) ∈ popped ∧
      ∀ o < 4096, s'.mem (frameOf (pteAt s'.mem new i j) + o) =
        s.mem (frameOf (pteAt s.mem s.cr3 i j) + o)
  distinct : ∀ i j i' j', i < 1023 → j < 1024 → mapped s.mem s.cr3 i j = true →
    ownPage bssEnd s i j = true → i' < 1023 → j' < 1024 → mapped s.mem s.cr3 i' j' = true →
    ownPage bssEnd s i' j' = true →
    frameOf (pteAt s'.mem new i j) = frameOf (pteAt s'.mem new i' j') → i = i' ∧ j = j'
  shared : ∀ i j, i < 1023 → j < 1024 → mapped s.mem s.cr3 i j = true →
    ownPage bssEnd s i j = false →
    frameOf (pteAt s'.mem new i j) = frameOf (pteAt s.mem s.cr3 i j)
  self : present (pdeAt s'.mem new 1023) = true ∧ frameOf (pdeAt s'.mem new 1023) = new
  dir : ∀ o < 4096, s'.mem (s.cr3 + o) = s.mem (s.cr3 + o)
  tables : ∀ i, i < 1023 → present (pdeAt s.mem s.cr3 i) = true → ∀ o < 4096,
    s'.mem (frameOf (pdeAt s.mem s.cr3 i) + o) = s.mem (frameOf (pdeAt s.mem s.cr3 i) + o)
  userPages : ∀ i j, i < 1023 → j < 1024 → mapped s.mem s.cr3 i j = true →
    user (pteAt s.mem s.cr3 i j) = true → ∀ o < 4096,
    s'.mem (frameOf (pteAt s.mem s.cr3 i j) + o) = s.mem (frameOf (pteAt s.mem s.cr3 i j) + o)

/-! ## Which pages are copied -/

theorem pageVaddr_eq {i j : Nat} (hj : j < 1024) : pageVaddr i j = i * 2 ^ 22 + j * 2 ^ 12 := by
  have hor := Nat.shiftLeft_add_eq_or_of_lt (show j <<< 12 < 2 ^ 22 by
    rw [Nat.shiftLeft_eq]
    omega) i
  rw [pageVaddr, ← hor, Nat.shiftLeft_eq, Nat.shiftLeft_eq]

/-- The tests of the two copying loops agree where each of them runs. -/
theorem keepOf_eq {bssEnd i j : Nat} (hbss : bssEnd ≤ 0x800000) (hj : j < 1024) :
    keepOf (kernelEndPage bssEnd) i (pageVaddr i j) =
      inKernel (kernelEndPage bssEnd) (pageVaddr i j) := by
  by_cases hi : i ≤ 1
  · rw [keepOf, if_pos hi]
  · have hend : kernelEndPage bssEnd ≤ 0x800000 := by
      rw [kernelEndPage, frameOf_eq (by unfold u32; omega), u32]
      omega
    rw [keepOf, if_neg hi, pageVaddr_eq hj, Bool.eq_iff_iff]
    simp only [inKernel, decide_eq_true_eq, Bool.and_eq_true]
    omega

section Page

variable {bssEnd : Nat} {s : Vm} {i j : Nat}

/-- In an entry with a table of its own, exactly the mapped pages of `ownPage` are copied. -/
theorem copies_of_deep (hbss : bssEnd ≤ 0x800000) (hj : j < 1024)
    (hdeep : deep (kernelEndPage bssEnd) s i = true)
    (hpte : present (pteAt s.mem s.cr3 i j) = true) :
    copies (keepOf (kernelEndPage bssEnd) i) s i j = ownPage bssEnd s i j := by
  have hpde : (decide (i ≤ 1) || user (pdeAt s.mem s.cr3 i)) = true := by
    by_cases hi : i ≤ 1
    · simp [hi]
    · simp only [deep, hi, if_false, Bool.and_eq_true] at hdeep
      simp [hdeep.2]
  rw [copies, keepOf_eq hbss hj, ownPage, hpte, hpde, Bool.true_and, Bool.true_and]
  exact Bool.and_comm _ _

/-- In an entry whose table is shared no mapped page is copied. -/
theorem ownPage_of_not_deep (hj : j < 1024) (hdeep : deep (kernelEndPage bssEnd) s i = false)
    (hpde : present (pdeAt s.mem s.cr3 i) = true) (hpte : present (pteAt s.mem s.cr3 i j) = true) :
    ownPage bssEnd s i j = false := by
  by_cases hi : i ≤ 1
  · simp only [deep, hpde, hi, if_true, Bool.true_and, List.any_eq_false, List.mem_range] at hdeep
    have hpage := hdeep j hj
    simp only [hpte, Bool.true_and] at hpage
    simpa [ownPage, hi] using hpage
  · simp only [deep, hpde, hi, if_false, Bool.true_and] at hdeep
    simp [ownPage, hi, hdeep]

end Page

/-! ## The finished directory -/

/-- Entry `j` behind a present entry of the finished directory `d`. -/
structure PageDone (bssEnd : Nat) (s : Vm) (d : Nat) (log : List (Use × Nat)) (m : Nat → UInt8)
    (i j : Nat) : Prop where
  absent : present (pteAt s.mem s.cr3 i j) = false → present (pteAt m d i j) = false
  flags : present (pteAt s.mem s.cr3 i j) = true →
    flagsOf (pteAt m d i j) = flagsOf (pteAt s.mem s.cr3 i j)
  copied : present (pteAt s.mem s.cr3 i j) = true → ownPage bssEnd s i j = true →
    (Use.page i j, frameOf (pteAt m d i j)) ∈ log ∧ ∀ o < 4096,
      m (frameOf (pteAt m d i j) + o) = s.mem (frameOf (pteAt s.mem s.cr3 i j) + o)
  shared : present (pteAt s.mem s.cr3 i j) = true → ownPage bssEnd s i j = false →
    frameOf (pteAt m d i j) = frameOf (pteAt s.mem s.cr3 i j)

section Finished

variable {bssEnd : Nat} {s s' : Vm} {d i : Nat} {log : List (Use × Nat)}

/-- A table that is shared looks the same from the new directory. -/
theorem PageDone.of_shared (h₀ : Cloneable s) (hwork : Working s s') (hi : i < 1023)
    (hpde : present (pdeAt s.mem s.cr3 i) = true) (hdeep : deep (kernelEndPage bssEnd) s i = false)
    (hword : pdeAt s'.mem d i = pdeAt s.mem s.cr3 i) {j : Nat} (hj : j < 1024) :
    PageDone bssEnd s d log s'.mem i j := by
  have hpte : pteAt s'.mem d i j = pteAt s.mem s.cr3 i j := by
    rw [← hwork.pteAt h₀ (by omega) hj hpde, pteAt, pteAt, hword, hwork.pdeAt h₀ (by omega)]
  refine ⟨by simp [hpte], by simp [hpte], ?_, by simp [hpte]⟩
  intro hp hown
  rw [ownPage_of_not_deep hj hdeep hpde hp] at hown
  exact absurd hown (by decide)

/-- A table of the clone's own. -/
theorem PageDone.of_copied (hbss : bssEnd ≤ 0x800000)
    (haligned : ∀ x ∈ log, x.2 % 4096 = 0 ∧ x.2 < 2 ^ 32)
    (hdeep : deep (kernelEndPage bssEnd) s i = true) {t : Nat}
    (hword : frameOf (pdeAt s'.mem d i) = t) {j : Nat} (hj : j < 1024)
    (hdone : PteDone (keepOf (kernelEndPage bssEnd) i) s i t log s'.mem j) :
    PageDone bssEnd s d log s'.mem i j := by
  have hpte : pteAt s'.mem d i j = load32 s'.mem (t + 4 * j) := by rw [pteAt, hword]
  have hcopied : present (pteAt s.mem s.cr3 i j) = true → ownPage bssEnd s i j = true →
      ∃ f, (Use.page i j, f) ∈ log ∧ pteAt s'.mem d i j = f ||| flagsOf (pteAt s.mem s.cr3 i j) ∧
        ∀ o < 4096, s'.mem (f + o) = s.mem (frameOf (pteAt s.mem s.cr3 i j) + o) := by
    intro hp hown
    rw [hpte]
    exact hdone.copied (by rw [copies_of_deep hbss hj hdeep hp, hown])
  have hshared : present (pteAt s.mem s.cr3 i j) = true → ownPage bssEnd s i j = false →
      pteAt s'.mem d i j = pteAt s.mem s.cr3 i j := by
    intro hp hown
    rw [hpte]
    exact hdone.shared hp (by rw [copies_of_deep hbss hj hdeep hp, hown])
  constructor
  · intro hp
    rw [hpte, hdone.absent hp]
    decide
  · intro hp
    cases hown : ownPage bssEnd s i j with
    | true =>
        obtain ⟨f, hf, hentry, -⟩ := hcopied hp hown
        rw [hentry, flagsOf_or (haligned _ hf).1 (flagsOf_lt _)]
    | false => rw [hshared hp hown]
  · intro hp hown
    obtain ⟨f, hf, hentry, hbytes⟩ := hcopied hp hown
    rw [hentry, frameOf_or (haligned _ hf).1 (haligned _ hf).2 (flagsOf_lt _)]
    exact ⟨hf, hbytes⟩
  · intro hp hown
    rw [hshared hp hown]

/-- A present entry of the new directory has the flags of the old one, and all its pages are what
they should be. -/
theorem PdeDone.finished (h₀ : Cloneable s) (hwork : Working s s') (hbss : bssEnd ≤ 0x800000)
    (haligned : ∀ x ∈ log, x.2 % 4096 = 0 ∧ x.2 < 2 ^ 32) (hi : i < 1023)
    (hpde : present (pdeAt s.mem s.cr3 i) = true)
    (h : PdeDone (kernelEndPage bssEnd) s d log s'.mem i) :
    flagsOf (pdeAt s'.mem d i) = flagsOf (pdeAt s.mem s.cr3 i) ∧
      ∀ j < 1024, PageDone bssEnd s d log s'.mem i j := by
  cases hdeep : deep (kernelEndPage bssEnd) s i with
  | false =>
      have hword : pdeAt s'.mem d i = pdeAt s.mem s.cr3 i := h.shared hpde hdeep
      exact ⟨by rw [hword], fun j hj => .of_shared h₀ hwork hi hpde hdeep hword hj⟩
  | true =>
      obtain ⟨t, ht, hword, hptes⟩ := h.copied hdeep
      have hframe : frameOf (pdeAt s'.mem d i) = t := by
        rw [pdeAt, hword]
        exact frameOf_or (haligned _ ht).1 (haligned _ ht).2 (flagsOf_lt _)
      refine ⟨?_, fun j hj => .of_copied hbss haligned hdeep hframe hj (hptes j hj)⟩
      rw [pdeAt, hword]
      exact flagsOf_or (haligned _ ht).1 (flagsOf_lt _)

/-- The finished clone at `d`, with the frames in `log`. -/
structure Cloned (bssEnd : Nat) (s : Vm) (d : Nat) (log : List (Use × Nat)) (s' : Vm) : Prop where
  work : Working s s'
  pops : s.free = d :: log.map Prod.snd ++ s'.free
  done : ∀ i < 1023, PdeDone (kernelEndPage bssEnd) s d log s'.mem i
  self : pdeAt s'.mem d 1023 = d ||| 0x03
  len : 1 + log.length = framesForClone (kernelEndPage bssEnd) s

/-- The clone runs to its end, or it lacks free frames. -/
theorem pagingCloneDirectory_cases (h₀ : Cloneable s) :
    (∃ d log s', pagingCloneDirectory bssEnd s = some (d, s') ∧ Cloned bssEnd s d log s') ∨
      (pagingCloneDirectory bssEnd s = none ∧
        s.free.length < framesForClone (kernelEndPage bssEnd) s) := by
  unfold pagingCloneDirectory pfaAlloc framesForClone
  cases hfree : s.free with
  | nil => exact .inr ⟨rfl, by simp⟩
  | cons d fs =>
      have hd : d ∈ s.free := by simp [hfree]
      have hnd : (d :: fs).Nodup := hfree ▸ h₀.nodup
      have hsub : ∀ f ∈ fs, f ∈ s.free := fun f hf => by simp [hfree, hf]
      have hwork₀ : Working s { s with free := fs } := ⟨rfl, .refl _ _⟩
      simp only [Option.bind_eq_bind, Option.bind_some]
      rcases @PdeLoop.run (kernelEndPage bssEnd) s { s with free := fs } d h₀ hwork₀ hsub hd hnd
        with ⟨s₁, hs₁, log, hloop⟩ | ⟨hnone, hlt⟩
      · obtain ⟨hlogged, -, -⟩ := hloop.apart hsub hnd
        obtain ⟨hd₀, hd₁⟩ := h₀.aligned d hd
        let m := store32 s₁.mem (d + 4 * 1023) (d ||| 0x03)
        have hwrite : s₁.write32 (d + 4 * 1023) (frameOf d ||| 0x03) =
            some { s₁ with mem := m } := by
          rw [frameOf_self hd₀ hd₁]
          exact hloop.work.write h₀ hd (by omega) _
        refine .inl ⟨d, log, { s₁ with mem := m }, by rw [hs₁, Option.bind_some, hwrite]; rfl,
          hloop.work.stored hd (by omega) _, ?_, ?_, ?_, ?_⟩
        · have hpops : fs = log.map Prod.snd ++ s₁.free := hloop.pops
          simp [hfree, hpops]
        · intro i hi
          apply (hloop.done i hi).mono (load32_store32_ne (by omega)) _ fun _ hx => hx
          intro x hx o ho
          obtain ⟨hx₀, hxd⟩ := hlogged x hx
          have hx' := h₀.frame_aligned _ hx₀
          exact store32_of_outside (by omega)
        · exact load32_store32_same _ _ (or_lt hd₀ hd₁ (by decide))
        · rw [framesForClone, hloop.len]
      · refine .inr ⟨by rw [hnone]; rfl, ?_⟩
        rw [List.length_cons]
        dsimp only at hlt
        omega

/-- A clone that has succeeded. -/
theorem Cloned.of_some {d : Nat} (h₀ : Cloneable s)
    (hrun : pagingCloneDirectory bssEnd s = some (d, s')) : ∃ log, Cloned bssEnd s d log s' := by
  rcases @pagingCloneDirectory_cases bssEnd s h₀ with ⟨d', log, s'', hrun', hcloned⟩ | ⟨hnone, -⟩
  · obtain ⟨rfl, rfl⟩ : d' = d ∧ s'' = s' := by simpa using hrun'.symm.trans hrun
    exact ⟨log, hcloned⟩
  · simp [hnone] at hrun

/-- A finished clone is an exact copy. -/
theorem Cloned.isClone (hbss : bssEnd ≤ 0x800000) (h₀ : Cloneable s)
    (h : Cloned bssEnd s d log s') : IsClone bssEnd s d (log.map Prod.snd) s' := by
  obtain ⟨hwork, hpops, hdone, hlast⟩ := h
  have hlog : ∀ x ∈ log, x.2 ∈ s.free := by
    intro x hx
    rw [hpops]
    simp [List.mem_map_of_mem hx]
  have hd : d ∈ s.free := by simp [hpops]
  obtain ⟨hd₀, hd₁⟩ := h₀.aligned d hd
  have haligned : ∀ x ∈ log, x.2 % 4096 = 0 ∧ x.2 < 2 ^ 32 := fun x hx => h₀.aligned _ (hlog x hx)
  have hnd : (log.map Prod.snd).Nodup := by
    have hnd := h₀.nodup
    rw [hpops, List.cons_append, List.nodup_cons, List.nodup_append] at hnd
    exact hnd.2.1
  have hfinished := fun i hi hpde => (hdone i hi).finished h₀ hwork hbss haligned hi hpde
  refine ⟨hpops, hwork.cr3, ?_, ?_, ?_, ?_, ?_, ?_, ?_, ?_, ?_⟩
  · intro i j hi hj
    cases hpde : present (pdeAt s.mem s.cr3 i) with
    | false =>
        have hzero : pdeAt s'.mem d i = 0 := (hdone i hi).absent hpde
        rw [mapped, mapped, hpde, hzero]
        rfl
    | true =>
        obtain ⟨hflags, hpages⟩ := hfinished i hi hpde
        rw [mapped, mapped, present_of_flagsOf_eq hflags]
        cases hpte : present (pteAt s.mem s.cr3 i j) with
        | false => rw [(hpages j hj).absent hpte]
        | true => rw [present_of_flagsOf_eq ((hpages j hj).flags hpte), hpte]
  · intro i j hi hj hmapped
    obtain ⟨hpde, hpte⟩ := mapped_iff.mp hmapped
    obtain ⟨hflags, hpages⟩ := hfinished i hi hpde
    exact ⟨hflags, (hpages j hj).flags hpte⟩
  · intro i j hi hj hmapped hown
    obtain ⟨hpde, hpte⟩ := mapped_iff.mp hmapped
    obtain ⟨hin, hbytes⟩ := ((hfinished i hi hpde).2 j hj).copied hpte hown
    exact ⟨List.mem_map_of_mem hin, hbytes⟩
  · intro i j i' j' hi hj hmapped hown hi' hj' hmapped' hown' heq
    obtain ⟨hpde, hpte⟩ := mapped_iff.mp hmapped
    obtain ⟨hpde', hpte'⟩ := mapped_iff.mp hmapped'
    have hin := (((hfinished i hi hpde).2 j hj).copied hpte hown).1
    have hin' := (((hfinished i' hi' hpde').2 j' hj').copied hpte' hown').1
    have hsame := List.inj_on_of_nodup_map hnd hin hin' heq
    simpa using congrArg Prod.fst hsame
  · intro i j hi hj hmapped hown
    obtain ⟨hpde, hpte⟩ := mapped_iff.mp hmapped
    exact ((hfinished i hi hpde).2 j hj).shared hpte hown
  · rw [hlast, frameOf_or hd₀ hd₁ (by decide), or_flags hd₀ (by decide), present_iff]
    omega
  · exact fun o ho => hwork.mem.byte h₀.frame_aligned h₀.cr3.1 h₀.notDir ho
  · intro i hi hpde o ho
    exact hwork.mem.byte h₀.frame_aligned (frameOf_aligned (pdeAt_lt _ _ _)).1
      (h₀.notTable i hi hpde) ho
  · intro i j hi hj hmapped huser o ho
    exact hwork.mem.byte h₀.frame_aligned (frameOf_aligned (pteAt_lt _ _ _ _)).1
      (h₀.notPage i j hi hj hmapped huser) ho

/-- The clone of a directory that `Cloneable` admits is an exact copy of the address space, if
there are enough free frames for it. -/
theorem address_space_cloned (hbss : bssEnd ≤ 0x800000) (h₀ : Cloneable s)
    (henough : framesForClone (kernelEndPage bssEnd) s ≤ s.free.length) :
    ∃ new popped s', pagingCloneDirectory bssEnd s = some (new, s') ∧
      IsClone bssEnd s new popped s' := by
  rcases @pagingCloneDirectory_cases bssEnd s h₀ with ⟨d, log, s', hrun, hcloned⟩ | ⟨-, hlt⟩
  · exact ⟨d, _, s', hrun, hcloned.isClone hbss h₀⟩
  · omega

end Finished

end SRos.Paging
