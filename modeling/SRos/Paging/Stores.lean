import SRos.Paging.Regular

/-!
# Stores outside the tables

A store to a frame that is neither the directory nor one of its tables changes no translation.
-/

namespace SRos.Paging

open Bytes Loop

/-- The directory and its tables have the same entries. -/
structure SameTables (s s' : Vm) : Prop where
  cr3 : s'.cr3 = s.cr3
  pde : ∀ k < 1024, pdeAt s'.mem s.cr3 k = pdeAt s.mem s.cr3 k
  pte : ∀ k < 1024, ∀ l < 1024, present (pdeAt s.mem s.cr3 k) = true →
    pteAt s'.mem s.cr3 k l = pteAt s.mem s.cr3 k l

namespace SameTables

variable {s s' s'' : Vm} {v f : Nat}

theorem refl (s : Vm) : SameTables s s := ⟨rfl, fun _ _ => rfl, fun _ _ _ _ _ => rfl⟩

theorem trans (h : SameTables s s') (h' : SameTables s' s'') : SameTables s s'' := by
  obtain ⟨hcr3, hpde, hpte⟩ := h'
  rw [h.cr3] at hcr3 hpde hpte
  refine ⟨hcr3, fun k hk => (hpde k hk).trans (h.pde k hk), fun k hk l hl hpresent => ?_⟩
  rw [hpte k hk l hl (by rwa [h.pde k hk]), h.pte k hk l hl hpresent]

theorem walk (h : SameTables s s') (hdir : frameOf s.cr3 = s.cr3) (hv : v < 2 ^ 32) :
    walk s' v = walk s v := by
  rw [vaddr_eq v, walk_split (by rwa [h.cr3]) (by omega) (by omega),
    walk_split hdir (by omega) (by omega), h.cr3]
  cases hpde : present (pdeAt s.mem s.cr3 (v / 2 ^ 22)) with
  | true =>
      rw [mapped, mapped, h.pde _ (by omega), h.pte _ (by omega) _ (by omega) hpde]
  | false =>
      rw [mapped, mapped, h.pde _ (by omega), hpde, Bool.false_and, Bool.false_and]
      rfl

theorem translate (h : SameTables s s') (hdir : frameOf s.cr3 = s.cr3) (hv : v < 2 ^ 32) :
    s'.translate v = s.translate v := by
  rw [translate_walk, translate_walk, h.walk hdir hv]

theorem unused (h : SameTables s s') (hf : Unused s f) : Unused s' f := by
  intro k hk hpresent
  rw [h.cr3, h.pde k hk] at hpresent ⊢
  exact hf k hk hpresent

/-- The directory still serves to map pages. -/
theorem regular (h : SameTables s s') (hs : Regular s) (hfree : s'.free.Sublist s.free) :
    Regular s' := by
  refine ⟨⟨?_, ?_, ?_, ?_⟩, hs.nodup.sublist hfree, fun f hf => ?_⟩
  · rw [h.cr3]
    exact hs.dir
  · rw [h.cr3, h.pde 1023 (by omega)]
    exact hs.self
  · intro i hi k hk
    rw [h.cr3, h.pde i hi, h.pde k hk]
    exact hs.distinct i hi k hk
  · intro o ho
    have haligned := hs.aligned
    rw [h.cr3, h.translate hs.dir (by omega)]
    exact hs.ident o ho
  · obtain ⟨hframe, hunused⟩ := hs.unused f (hfree.subset hf)
    exact ⟨hframe, h.unused hunused⟩

end SameTables

variable {s s' : Vm} {f : Nat} {m : Nat → UInt8}

/-- The entries do not depend on the memory of an unused frame. -/
theorem SelfMapped.stored (h : SelfMapped s) (hf : f % 4096 = 0) (hunused : Unused s f)
    (hmem : AgreeOff [f] s.mem m) : SameTables s { s with mem := m } := by
  have hword : ∀ g, g % 4096 = 0 → g ≠ f → ∀ k < 1024,
      load32 m (g + 4 * k) = load32 s.mem (g + 4 * k) := by
    intro g hg hne k hk
    exact hmem.word (by simpa using hf) hg (by simpa using hne) (by omega)
  have hpde : ∀ k < 1024, pdeAt m s.cr3 k = pdeAt s.mem s.cr3 k :=
    hword _ h.aligned.1 (h.dir_ne hunused)
  refine ⟨rfl, hpde, fun k hk l hl hpresent => ?_⟩
  rw [pteAt, pteAt, hpde k hk]
  exact hword _ (frameOf_frame _).1 (hunused k hk hpresent) l hl

theorem SelfMapped.stored8 (h : SelfMapped s) (hf : f % 4096 = 0) (hunused : Unused s f) {o : Nat}
    (ho : o < 4096) (b : UInt8) :
    SameTables s { s with mem := Function.update s.mem (f + o) b } := by
  refine h.stored hf hunused fun a ha => ?_
  have hne : a ≠ f + o := by
    have hout := ha f (by simp)
    omega
  exact Function.update_of_ne hne b s.mem

end SRos.Paging
