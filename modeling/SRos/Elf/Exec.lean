import SRos.Elf.Segments

/-!
# Loading a program

The whole of `elf_load_and_exec`, in terms of the image.
-/

namespace SRos.Elf

open Bytes Fs Paging Loop

/-- The header of a file, as the loader reads it. -/
def ehdrAt (fs : FsState) (ino : Nat) : Ehdr :=
  Ehdr.decode (readFileAt fs ino uninit sizeofEhdr 0).2

/-- The file is long enough to have a header. -/
def hasEhdr (fs : FsState) (ino : Nat) : Prop :=
  (sizeofEhdr : Int) ≤ (readFileAt fs ino uninit sizeofEhdr 0).1

/-- The segments of a file, in the order in which they are loaded. -/
def segments (fs : FsState) (ino : Nat) : List Phdr :=
  segmentsAt fs ino (ehdrAt fs ino).ePhoff (List.range (ehdrAt fs ino).ePhnum)

/-- All segments that the loader may come to are in the user space. -/
def SegmentsInUser (fs : FsState) (ino : Nat) : Prop :=
  ∀ i < (ehdrAt fs ino).ePhnum, hasPhdr fs ino (ehdrAt fs ino).ePhoff i →
    (phdrAt fs ino (ehdrAt fs ino).ePhoff i).pType = ptLoad →
    InUser (phdrAt fs ino (ehdrAt fs ino).ePhoff i)

section Exec

variable {own₀ own : Nat → Kind} {s₀ s s' : Vm} {img : Nat → Option UInt8} {fresh : Nat → Option Nat}
  {fs : FsState} {path : CStr} {regs regs' : Registers} {r : Int}

/-- The pages of the user stack. -/
theorem Loading.setupUserStack (h : Loading own₀ s₀ img fresh own s) (hs : setupUserStack s = some s') :
    ∃ img' fresh' own', Loading own₀ s₀ img' fresh' own' s' ∧
      (∀ p, (fresh p).isSome → (fresh' p).isSome) ∧ (∀ k < 4, (fresh' (0xDFFFF - k)).isSome) ∧
      ∀ v < 0xDFFFC000, img' v = img v := by
  refine foldlM_range_keeps (fun n t => ∃ img' fresh' own', Loading own₀ s₀ img' fresh' own' t ∧
    (∀ p, (fresh p).isSome → (fresh' p).isSome) ∧ (∀ k < n, (fresh' (0xDFFFF - k)).isSome) ∧
    ∀ v < 0xDFFFC000, img' v = img v) hs
    ⟨img, fresh, own, h, fun _ hp => hp, by omega, fun _ _ => rfl⟩ ?_
  intro n t t' hn ⟨img₁, fresh₁, own₁, h₁, hmono, hstack, himg⟩ ht
  have hn' : n < 4 := hn
  have haddr : userStackVaddr - (n + 1) * 0x1000 = (0xDFFFF - n) * 4096 := by
    unfold userStackVaddr
    omega
  rw [haddr] at ht
  obtain ⟨f, own₂, h₂⟩ := h₁.alloc (by unfold UserPage; omega) ht
  have hkeep := fun p => @isSome_update fresh₁ p (0xDFFFF - n) f
  refine ⟨_, _, own₂, h₂, fun p hp => hkeep p (hmono p hp), ?_, ?_⟩
  · intro k hk
    by_cases hkn : k = n
    · rw [hkn, Function.update_self]
      rfl
    · exact hkeep _ (hstack k (by omega))
  · intro v hv
    rw [clearPage, if_neg (by omega)]
    exact himg v hv

/-- A call of `elf_load_and_exec` that has succeeded. -/
structure Executed (fs : FsState) (path : CStr) (regs : Registers) (img : Nat → Option UInt8)
    (fresh : Nat → Option Nat) (regs' : Registers) (ino : Nat) : Prop where
  found : lookupPath fs path = some ino
  header : hasEhdr fs ino
  check : elfCheckFile (ehdrAt fs ino) = true
  regs : regs' = startRegs (ehdrAt fs ino).eEntry regs
  phdrs : ∀ i < (ehdrAt fs ino).ePhnum, hasPhdr fs ino (ehdrAt fs ino).ePhoff i
  stack : ∀ k < 4, (fresh (0xDFFFF - k)).isSome
  pages : ∀ ph ∈ segments fs ino, ∀ v, onPages ph.pVaddr ph.pFilesz v → (fresh (v / 4096)).isSome
  image : ∀ src, (∀ ph ∈ segments fs ino, Reads fs ino ph.pOffset ph.pVaddr ph.pFilesz (src ph)) →
    ∀ v < 0xDFFFC000, img v = imageOf src (segments fs ino) (fun _ => none) v

theorem elfLoadAndExec_loading (h : Laid own₀ s₀)
    (hseg : ∀ ino, lookupPath fs path = some ino → hasEhdr fs ino → SegmentsInUser fs ino)
    (hs : elfLoadAndExec fs path regs s₀ = some (r, regs', s')) :
    ∃ img fresh own, Loading own₀ s₀ img fresh own s' ∧ (r = 0 ∨ r = -1) ∧
      (r = 0 → ∃ ino, Executed fs path regs img fresh regs' ino) := by
  have hstay : some (-1, regs, s₀) = some (r, regs', s') →
      ∃ img fresh own, Loading own₀ s₀ img fresh own s' ∧ (r = 0 ∨ r = -1) ∧
        (r = 0 → ∃ ino, Executed fs path regs img fresh regs' ino) := by
    intro heq
    obtain ⟨rfl, rfl, rfl⟩ : -1 = r ∧ regs = regs' ∧ s₀ = s' := by simpa using heq
    exact ⟨_, _, own₀, .start h, .inr rfl, by simp⟩
  unfold elfLoadAndExec at hs
  cases hfound : lookupPath fs path with
  | none =>
      rw [hfound] at hs
      exact hstay hs
  | some ino =>
      rw [hfound] at hs
      dsimp only at hs
      by_cases hheader : (readFileAt fs ino uninit sizeofEhdr 0).1 < sizeofEhdr
      · rw [if_pos hheader] at hs
        exact hstay hs
      · have hhas : hasEhdr fs ino := by
          unfold hasEhdr
          omega
        rw [if_neg hheader] at hs
        change (if (!elfCheckFile (ehdrAt fs ino)) = true then _ else
          Option.bind (loadSegments fs ino (ehdrAt fs ino).ePhoff
            (List.range (ehdrAt fs ino).ePhnum) s₀) _) = _ at hs
        cases hcheck : elfCheckFile (ehdrAt fs ino) with
        | false =>
            rw [hcheck] at hs
            exact hstay hs
        | true =>
            rw [hcheck, if_neg (by decide)] at hs
            obtain ⟨⟨r₁, s₁⟩, hs₁, hs⟩ := Option.bind_eq_some_iff.mp hs
            obtain ⟨img₁, fresh₁, own₁, h₁, -, hr₁, hphdrs, hpages, himage⟩ :=
              (Loading.start h).loadSegments
                (fun i hi => hseg ino hfound hhas i (List.mem_range.mp hi)) hs₁
            dsimp only at hs
            rcases hr₁ with rfl | rfl
            · rw [if_neg (by decide)] at hs
              obtain ⟨s₂, hs₂, hs⟩ := Option.bind_eq_some_iff.mp hs
              obtain ⟨rfl, rfl, rfl⟩ :
                  0 = r ∧ startRegs (ehdrAt fs ino).eEntry regs = regs' ∧ s₂ = s' := by
                simpa [ehdrAt] using hs
              obtain ⟨img₂, fresh₂, own₂, h₂, hmono, hstack, hsame⟩ := h₁.setupUserStack hs₂
              refine ⟨img₂, fresh₂, own₂, h₂, .inl rfl, fun _ => ⟨ino, hfound, hhas, hcheck, rfl,
                fun i hi => hphdrs rfl i (List.mem_range.mpr hi), hstack,
                fun ph hph v hv => hmono _ (hpages rfl ph hph v hv), ?_⟩⟩
              intro src hsrc v hv
              rw [hsame v hv, himage rfl src hsrc]
              rfl
            · rw [if_pos (by decide)] at hs
              obtain ⟨rfl, rfl, rfl⟩ : -1 = r ∧ regs = regs' ∧ s₁ = s' := by simpa using hs
              exact ⟨img₁, fresh₁, own₁, h₁, .inr rfl, by simp⟩

end Exec

end SRos.Elf
