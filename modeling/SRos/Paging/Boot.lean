import SRos.Paging.Family

/-!
# The address space after boot

`kernel_main` pushes four frames and calls `paging_init`, which takes two of them for the first
directory and its table and continues in `kernel_after_paging`, where 256 more are pushed. The
memory the machine starts with is arbitrary.
-/

namespace SRos.Paging

open Bytes

/-- The boot directory. -/
def bootDir : Nat := 0x114000

/-- `kernel_main` and the start of `kernel_after_paging`, on a machine with memory `m`. -/
def boot (m : Nat → UInt8) : Option Vm := do
  let s := earlyFrames.foldl (fun s f => pfaPush f s) { mem := m, cr3 := 0, free := [] }
  let s ← pagingInit s
  return lateFrames.foldl (fun s f => pfaPush f s) s

/-- What each frame is used for when the scheduler starts. -/
def bootOwn (owner f : Nat) : Kind :=
  if f = bootDir then .dir owner
  else if f = idTable then .idTable
  else if f ∈ bootFrames then .free
  else .none

theorem free_foldl_pfaPush (fs : List Nat) (s : Vm) :
    fs.foldl (fun s f => pfaPush f s) s = { s with free := fs.reverse ++ s.free } := by
  induction fs generalizing s with
  | nil => rfl
  | cons f fs ih =>
      rw [List.foldl_cons, ih]
      simp [pfaPush]

/-- Stores to the first `n` entries of the table at `t`. -/
theorem fillTable {g : Nat → Nat} (hg : ∀ i, i < 1024 → g i < 2 ^ 32) (m : Nat → UInt8) (t : Nat)
    {n : Nat} (hn : n ≤ 1024) :
    (∀ j < n, load32 ((List.range n).foldl (fun m i => store32 m (t + 4 * i) (g i)) m)
      (t + 4 * j) = g j) ∧
    AgreeOff [t] m ((List.range n).foldl (fun m i => store32 m (t + 4 * i) (g i)) m) := by
  induction n with
  | zero => exact ⟨by omega, .refl _ _⟩
  | succ n ih =>
      obtain ⟨hwords, hagree⟩ := ih (by omega)
      rw [List.range_succ, List.foldl_append]
      simp only [List.foldl_cons, List.foldl_nil]
      refine ⟨?_, hagree.trans (.store32 (by simp) (by omega))⟩
      intro j hj
      by_cases hjn : j = n
      · rw [hjn]
        exact load32_store32_same _ _ (hg n (by omega))
      · rw [load32_store32_ne (by omega)]
        exact hwords j (by omega)

/-- The memory that `paging_init` leaves. -/
structure Initial (m : Nat → UInt8) : Prop where
  identity : ∀ j < 1024, load32 m (idTable + 4 * j) = j * 4096 ||| 0x03
  first : pdeAt m bootDir 0 = idTable ||| 0x03
  rest : ∀ i, 1 ≤ i → i < 1023 → pdeAt m bootDir i = 0
  self : pdeAt m bootDir 1023 = bootDir ||| 0x03

theorem pagingInit_eq (m : Nat → UInt8) (cr3 : Nat) (fs : List Nat) :
    ∃ m', pagingInit { mem := m, cr3 := cr3, free := bootDir :: idTable :: fs } =
      some { mem := m', cr3 := bootDir, free := fs } ∧ Initial m' := by
  let m₁ := clearFrame (clearFrame m bootDir) idTable
  let m₂ := (List.range 1024).foldl (fun m i => store32 m (idTable + 4 * i) (i * 4096 ||| 0x03)) m₁
  let m₃ := store32 m₂ bootDir (idTable ||| 0x03)
  let m₄ := store32 m₃ (idTable + 4 * (0xB8000 >>> 12 &&& 0x3FF)) (0xB8000 ||| 0x03)
  obtain ⟨hfilled, hagree⟩ := fillTable (g := fun i => i * 4096 ||| 0x03)
    (fun i hi => or_lt (by omega) (by omega) (by decide)) m₁ idTable (le_refl 1024)
  have hframes : bootDir = 0x114000 ∧ idTable = 0x113000 := ⟨rfl, rfl⟩
  obtain ⟨hdir, htable⟩ := hframes
  have hpt : (0xB8000 >>> 12 &&& 0x3FF : Nat) = 0xB8 := by decide
  have hfirst₃ : load32 m₃ bootDir = idTable ||| 0x03 := load32_store32_same _ _ (by decide)
  have hidentity : ∀ j < 1024, load32 m₄ (idTable + 4 * j) = j * 4096 ||| 0x03 := by
    intro j hj
    by_cases hvga : j = 0xB8
    · rw [hvga]
      exact load32_store32_same _ _ (by decide)
    · calc load32 m₄ (idTable + 4 * j) = load32 m₃ (idTable + 4 * j) :=
            load32_store32_ne (by rw [hpt]; omega)
        _ = load32 m₂ (idTable + 4 * j) := load32_store32_ne (by omega)
        _ = j * 4096 ||| 0x03 := hfilled j hj
  have hfirst : pdeAt m₄ bootDir 0 = idTable ||| 0x03 := by
    rw [← hfirst₃]
    exact load32_store32_ne (by rw [hpt]; omega)
  have hrest : ∀ i, 1 ≤ i → i < 1024 → pdeAt m₄ bootDir i = 0 := by
    intro i hi₀ hi
    calc load32 m₄ (bootDir + 4 * i) = load32 m₃ (bootDir + 4 * i) :=
          load32_store32_ne (by rw [hpt]; omega)
      _ = load32 m₂ (bootDir + 4 * i) := load32_store32_ne (by omega)
      _ = load32 m₁ (bootDir + 4 * i) :=
          hagree.word (by simp [idTable]) (by decide) (by decide) (by omega)
      _ = 0 := by
          refine load32_of_bytes (by decide) fun k hk => ?_
          have hout : m₁ (bootDir + 4 * i + k) = clearFrame m bootDir (bootDir + 4 * i + k) :=
            splice_outside (by omega)
          have hin : clearFrame m bootDir (bootDir + (4 * i + k)) = 0 := splice_inside (by omega)
          rw [hout, Nat.add_assoc, hin]
          simp [byte32]
  let m₅ := store32 m₄ (bootDir + 4 * 1023) (bootDir ||| 0x03)
  have hwrite : Vm.write32 { mem := m₄, cr3 := bootDir, free := fs } (bootDir + 4 * 1023)
      (bootDir ||| 0x03) = some { mem := m₅, cr3 := bootDir, free := fs } := by
    have hdir' : frameOf bootDir = bootDir := by decide
    have hsame := @translate_identity idTable { mem := m₄, cr3 := bootDir, free := fs } hdir'
      ⟨by decide, by decide⟩ hfirst hidentity (bootDir + 4 * 1023) (by decide)
    rw [Vm.write32, hsame]
    rfl
  have htable₅ : frameOf (load32 m₃ bootDir) = idTable := by
    rw [hfirst₃]
    decide
  refine ⟨m₅, ?_, ?_, ?_, ?_, ?_⟩
  · simp only [pagingInit, pfaAlloc, Option.bind_eq_bind, Option.bind_some]
    change Vm.write32 { mem := store32 m₃ (frameOf (load32 m₃ bootDir) + 4 * _) _, .. } _ _ = _
    rw [htable₅]
    exact hwrite
  · exact fun j hj => (load32_store32_ne (by omega)).trans (hidentity j hj)
  · exact (load32_store32_ne (by omega)).trans hfirst
  · exact fun i hi₀ hi => (load32_store32_ne (by omega)).trans (hrest i hi₀ (by omega))
  · exact load32_store32_same _ _ (by decide)

section BootOwn

variable {owner f : Nat}

theorem bootOwn_free_iff : bootOwn owner f = .free ↔ f ∈ bootFrames ∧ f ≠ bootDir ∧ f ≠ idTable := by
  unfold bootOwn
  by_cases hdir : f = bootDir
  · simp [hdir]
  · by_cases htable : f = idTable
    · simp [htable, show idTable ≠ bootDir by decide]
    · simp [hdir, htable]

theorem bootOwn_dir {k : Nat} (h : bootOwn owner f = .dir k) : f = bootDir := by
  unfold bootOwn at h
  split at h
  · assumption
  · split at h
    · cases h
    · split at h <;> cases h

theorem bootOwn_ne_table : bootOwn owner f ≠ .table := by
  unfold bootOwn
  split
  · simp
  · split
    · simp
    · split <;> simp

theorem bootOwn_mem (h : bootOwn owner f ≠ .none) : f ∈ bootFrames := by
  unfold bootOwn at h
  split at h
  · next heq =>
      rw [heq]
      decide
  · split at h
    · next heq =>
        rw [heq]
        decide
    · split at h
      · assumption
      · exact absurd rfl h

theorem le_of_mem_lateFrames (h : f ∈ lateFrames) : 0x300000 ≤ f := by
  obtain ⟨k, -, rfl⟩ := List.mem_map.mp h
  omega

theorem nodup_lateFrames : lateFrames.Nodup := by
  apply List.Nodup.map _ List.nodup_range
  intro j k hjk
  dsimp only at hjk
  omega

/-- The stack when the scheduler starts, top first. -/
theorem bootStack (owner : Nat) :
    Stacked (bootOwn owner) (lateFrames.reverse ++ [0x112000, 0x111000]) where
  nodup := by
    apply List.Nodup.append (List.nodup_reverse.mpr nodup_lateFrames) (by decide)
    intro f hf hearly
    have hle := le_of_mem_lateFrames (List.mem_reverse.mp hf)
    simp only [List.mem_cons, List.not_mem_nil, or_false] at hearly
    omega
  mem_iff := by
    intro f
    rw [bootOwn_free_iff]
    simp only [bootFrames, earlyFrames, bootDir, idTable, List.mem_append, List.mem_reverse,
      List.mem_cons, List.not_mem_nil, or_false]
    by_cases hf : f ∈ lateFrames
    · have hle := le_of_mem_lateFrames hf
      simp only [hf, true_or, or_true, true_and, true_iff]
      omega
    · simp only [hf, false_or, or_false]
      omega
  boot := fun _ hf => bootOwn_mem hf

end BootOwn

/-- The memory and the stack when the scheduler starts. -/
theorem boot_eq (m : Nat → UInt8) : ∃ m', Initial m' ∧ boot m = some
    { mem := m', cr3 := bootDir, free := lateFrames.reverse ++ [0x112000, 0x111000] } := by
  obtain ⟨m', hinit, hm'⟩ := pagingInit_eq m 0 [0x112000, 0x111000]
  refine ⟨m', hm', ?_⟩
  have hearly : earlyFrames.reverse ++ [] = bootDir :: idTable :: [0x112000, 0x111000] := rfl
  simp only [boot, free_foldl_pfaPush, hearly, hinit, Option.bind_eq_bind, Option.bind_some,
    Option.pure_def]

/-- The machine comes up with the frames laid out for the first task. -/
theorem boot_laid (m : Nat → UInt8) (owner : Nat) :
    ∃ s, boot m = some s ∧ s.cr3 = bootDir ∧ Laid (bootOwn owner) s ∧
      (∀ i, 1 ≤ i → i < 1023 → pdeAt s.mem bootDir i = 0) ∧ s.free.length = 258 := by
  obtain ⟨m', hm', hboot⟩ := boot_eq m
  have habsent : ∀ d k, bootOwn owner d = .dir k → ∀ i, 1 ≤ i → i < 1023 →
      present (pdeAt m' d i) = false := by
    intro d k hd i hi₀ hi
    rw [bootOwn_dir hd, hm'.rest i hi₀ hi]
    rfl
  refine ⟨_, hboot, rfl, ⟨bootStack owner, rfl, hm'.identity, ?_, ?_, ?_, ?_, ?_, owner, rfl⟩,
    hm'.rest, by simp [lateFrames]⟩
  · intro d k hd
    rw [bootOwn_dir hd]
    exact hm'.first
  · intro d k hd
    rw [bootOwn_dir hd]
    exact hm'.self
  · intro d k hd i hi₀ hi hp
    rw [habsent d k hd i hi₀ hi] at hp
    cases hp
  · intro d k hd i i' hi₀ hi hi₀' hi' hp
    rw [habsent d k hd i hi₀ hi] at hp
    cases hp
  · exact fun t ht => absurd ht bootOwn_ne_table

/-- The first clone takes one frame: all that is mapped is shared. -/
theorem boot_framesForClone {own : Nat → Kind} {s : Vm} (h : Laid own s) (hcr3 : s.cr3 = bootDir)
    (hrest : ∀ i, 1 ≤ i → i < 1023 → pdeAt s.mem bootDir i = 0) (kernelEnd : Nat) :
    framesForClone kernelEnd s = 1 := by
  have hzero : ∀ x ∈ (List.range 1023).map (framesForPde kernelEnd s), x = 0 := by
    intro x hx
    obtain ⟨i, hi, rfl⟩ := List.mem_map.mp hx
    have hshallow : deep kernelEnd s i = false := by
      by_cases h₀ : i = 0
      · rw [h₀]
        exact h.not_deep
      · have habsent : present (pdeAt s.mem s.cr3 i) = false := by
          rw [hcr3, hrest i (by omega) (List.mem_range.mp hi)]
          rfl
        simp [deep, habsent]
    simp [framesForPde, hshallow]
  rw [framesForClone, List.sum_eq_zero hzero, Nat.add_zero]

theorem address_space_cloned_boot : ∃ s, boot (fun _ => 0) = some s ∧
    ∃ new popped s', pagingCloneDirectory 0x110DA0 s = some (new, s') ∧
      IsClone 0x110DA0 s new popped s' := by
  obtain ⟨s, hs, hcr3, hlaid, hrest, hlen⟩ := boot_laid (fun _ => 0) 0
  refine ⟨s, hs, address_space_cloned (by decide) hlaid.cloneable ?_⟩
  rw [boot_framesForClone hlaid hcr3 hrest, hlen]
  decide

end SRos.Paging
