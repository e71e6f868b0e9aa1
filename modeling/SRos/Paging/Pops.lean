import SRos.Lib.Loop
import SRos.Paging.Model

/-!
# The functions of `paging.c` only take frames

Whatever the tables hold, no function gives a frame back or loads CR3.
-/

namespace SRos.Paging

open Loop

/-- Frames have been taken from the top of the stack. -/
structure Pops (s s' : Vm) : Prop where
  cr3 : s'.cr3 = s.cr3
  free : ∃ ps, s.free = ps ++ s'.free

namespace Pops

variable {s s' s'' : Vm}

theorem refl (s : Vm) : Pops s s := ⟨rfl, [], rfl⟩

theorem trans (h : Pops s s') (h' : Pops s' s'') : Pops s s'' := by
  obtain ⟨ps, hps⟩ := h.free
  obtain ⟨qs, hqs⟩ := h'.free
  exact ⟨h'.cr3.trans h.cr3, ps ++ qs, by rw [hps, hqs, List.append_assoc]⟩

theorem mem (s : Vm) (m : Nat → UInt8) : Pops s { s with mem := m } := ⟨rfl, [], rfl⟩

theorem write32 {v x : Nat} (h : s.write32 v x = some s') : Pops s s' := by
  obtain ⟨a, -, rfl⟩ := Option.map_eq_some_iff.mp h
  exact mem s _

theorem write8 {v : Nat} {b : UInt8} (h : s.write8 v b = some s') : Pops s s' := by
  obtain ⟨a, -, rfl⟩ := Option.map_eq_some_iff.mp h
  exact mem s _

theorem loop {α : Type} {f : Vm → α → Option Vm} {xs : List α} (h : xs.foldlM f s = some s')
    (hstep : ∀ s x s', f s x = some s' → Pops s s') : Pops s s' :=
  foldlM_keeps (Pops s) h (refl s) fun t x t' _ ht hs => ht.trans (hstep t x t' hs)

theorem memcpy {dst src n : Nat} (h : s.memcpy dst src n = some s') : Pops s s' := by
  apply loop h
  intro t i t' ht
  obtain ⟨b, -, hb⟩ := Option.bind_eq_some_iff.mp ht
  exact write8 hb

theorem pfaAlloc {f : Nat} (h : pfaAlloc s = some (f, s')) :
    s.free = f :: s'.free ∧ s' = { s with free := s'.free } := by
  obtain ⟨fs, hfree, rfl⟩ := pfaAlloc_some h
  exact ⟨hfree, rfl⟩

theorem of_pfaAlloc {f : Nat} (h : Paging.pfaAlloc s = some (f, s')) : Pops s s' := by
  obtain ⟨hfree, hs'⟩ := pfaAlloc h
  exact ⟨by rw [hs'], [f], hfree⟩

theorem clearTable {v : Nat} (h : clearTable v s = some s') : Pops s s' :=
  loop h fun _ _ _ hs => write32 hs

theorem allocTable {pdIdx flags : Nat} (h : allocTable pdIdx flags s = some s') : Pops s s' := by
  obtain ⟨⟨t, s₁⟩, h₁, h⟩ := Option.bind_eq_some_iff.mp h
  obtain ⟨s₂, h₂, h⟩ := Option.bind_eq_some_iff.mp h
  obtain ⟨s₃, h₃, h⟩ := Option.bind_eq_some_iff.mp h
  exact (((of_pfaAlloc h₁).trans (write32 h₂)).trans (clearTable h₃)).trans (write32 h)

theorem pagingMapUser {v : Nat} (h : pagingMapUser v s = some s') : Pops s s' := by
  obtain ⟨pde, -, h⟩ := Option.bind_eq_some_iff.mp h
  obtain ⟨pte, -, h⟩ := Option.bind_eq_some_iff.mp h
  obtain ⟨s₁, h₁, h⟩ := Option.bind_eq_some_iff.mp h
  obtain ⟨pde', -, h⟩ := Option.bind_eq_some_iff.mp h
  exact (write32 h₁).trans (write32 h)

theorem pagingMapPage {v f flags : Nat} (h : pagingMapPage v f flags s = some s') : Pops s s' := by
  obtain ⟨pde, -, h⟩ := Option.bind_eq_some_iff.mp h
  dsimp only at h
  split at h
  · exact write32 h
  · obtain ⟨s₁, h₁, h⟩ := Option.bind_eq_some_iff.mp h
    exact (allocTable h₁).trans (write32 h)

theorem clonePte {keep : Nat → Bool} {pdIdx newPt ptIdx : Nat}
    (h : clonePte keep pdIdx newPt s ptIdx = some s') : Pops s s' := by
  obtain ⟨pte, -, h⟩ := Option.bind_eq_some_iff.mp h
  split at h
  · cases h
    exact refl s
  · split at h
    · exact write32 h
    · split at h
      · obtain ⟨⟨f, s₁⟩, h₁, h⟩ := Option.bind_eq_some_iff.mp h
        obtain ⟨s₂, h₂, h⟩ := Option.bind_eq_some_iff.mp h
        exact ((of_pfaAlloc h₁).trans (memcpy h₂)).trans (write32 h)
      · exact write32 h

theorem cloneTable {keep : Nat → Bool} {newPd pdIdx oldPde : Nat}
    (h : cloneTable keep newPd pdIdx oldPde s = some s') : Pops s s' := by
  obtain ⟨⟨t, s₁⟩, h₁, h⟩ := Option.bind_eq_some_iff.mp h
  obtain ⟨s₂, h₂, h⟩ := Option.bind_eq_some_iff.mp h
  obtain ⟨s₃, h₃, h⟩ := Option.bind_eq_some_iff.mp h
  exact (((of_pfaAlloc h₁).trans (clearTable h₂)).trans (loop h₃ fun _ _ _ hs => clonePte hs)).trans
    (write32 h)

theorem clonePde {kernelEnd newPd pdIdx : Nat} (h : clonePde kernelEnd newPd s pdIdx = some s') :
    Pops s s' := by
  obtain ⟨pde, -, h⟩ := Option.bind_eq_some_iff.mp h
  split at h
  · exact write32 h
  · split at h
    · obtain ⟨b, -, h⟩ := Option.bind_eq_some_iff.mp h
      split at h
      · exact cloneTable h
      · exact write32 h
    · split at h
      · exact cloneTable h
      · exact write32 h

/-- The directory of the clone is in the top frame. -/
theorem pagingCloneDirectory {bssEnd d : Nat} (h : pagingCloneDirectory bssEnd s = some (d, s')) :
    s'.cr3 = s.cr3 ∧ ∃ ps, s.free = d :: ps ++ s'.free := by
  obtain ⟨⟨newPd, s₁⟩, h₁, h⟩ := Option.bind_eq_some_iff.mp h
  obtain ⟨s₂, h₂, h⟩ := Option.bind_eq_some_iff.mp h
  obtain ⟨s₃, h₃, h⟩ := Option.bind_eq_some_iff.mp h
  cases h
  have hrest : Pops s₁ s' := (loop h₂ fun _ _ _ hs => clonePde hs).trans (write32 h₃)
  obtain ⟨hfree, hs₁⟩ := pfaAlloc h₁
  obtain ⟨ps, hps⟩ := hrest.free
  exact ⟨hrest.cr3.trans (by rw [hs₁]), ps, by rw [hfree, hps, List.cons_append]⟩

end Pops

end SRos.Paging
