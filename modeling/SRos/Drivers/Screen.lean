import SRos.Drivers.Buffers

/-!
# The pages of the screen

`framebuffer_map` maps as many pages from `0xF0000000` on as the screen has, to the frames behind
its physical address.
-/

namespace SRos.Drivers

open Gui Loop Paging

/-- The first `n` pages of the screen are mapped. -/
structure ScreenMapped (s : Vm) (phys n : Nat) (s' : Vm) : Prop where
  regular : Regular s'
  cr3 : s'.cr3 = s.cr3
  maps : ∀ k < n, ∀ w, w / 4096 = 0xF0000 + k →
    walk s' w = some (frameOf (u32 (phys + k * 0x1000)), mapFlags 0x07, tableFlags 0x07 s (w / 2 ^ 22))
  others : ∀ w < 0xFFC00000, (w / 4096 < 0xF0000 ∨ 0xF0000 + n ≤ w / 4096) → walk s' w = walk s w
  tables : ∀ i < 1023, tableFlags 0x07 s' i = tableFlags 0x07 s i
  below : ∀ i < deviceEntry, pdeAt s'.mem s'.cr3 i = pdeAt s.mem s.cr3 i
  free : ∀ g ∈ s'.free, g ∈ s.free

/-- The number of pages that `kernel_after_paging` maps for the screen. -/
def pagesMapped (fb : Framebuffer) : Nat :=
  if fb.physAddr = 0 ∨ fb.addr ≠ 0 then 0 else fbPages fb

section Screen

variable {s s' t : Vm} {phys n k : Nat}

theorem ScreenMapped.refl (h : Regular s) : ScreenMapped s phys 0 s :=
  ⟨h, rfl, by simp, fun _ _ _ => rfl, fun _ _ => rfl, fun _ _ => rfl, fun _ hg => hg⟩

theorem virtBase_page (hk : k < 0xFC00) : u32 (virtBase + k * 0x1000) = virtBase + k * 0x1000 := by
  unfold u32 virtBase
  omega

theorem ScreenMapped.step (h : ScreenMapped s phys k t) (hlow : s.cr3 < lowEnd) (hk : k < 0xFC00)
    (hs : mapFbPage phys t k = some s') : ScreenMapped s phys (k + 1) s' := by
  unfold lowEnd at hlow
  rw [mapFbPage, virtBase_page hk] at hs
  have hv : virtBase + k * 0x1000 < 0xFFC00000 := by
    unfold virtBase
    omega
  have hpage : (virtBase + k * 0x1000) / 4096 = 0xF0000 + k := by
    unfold virtBase
    omega
  have hcr3 := h.cr3
  have hinstalled := h.regular.installed hv hs
  refine ⟨h.regular.step (by omega) hv (by omega) hs, hinstalled.cr3.trans h.cr3, ?_, ?_, ?_, ?_, ?_⟩
  · intro l hl w hw
    rw [h.regular.walk_mapPage hv hs (by omega), hpage]
    split
    · next heq =>
        obtain rfl : l = k := by omega
        have hentry : (virtBase + l * 0x1000) / 2 ^ 22 = w / 2 ^ 22 := by omega
        rw [hentry, h.tables _ (by omega)]
    · exact h.maps l (by omega) w hw
  · intro w hw hout
    rw [h.regular.walk_mapPage hv hs hw, hpage, if_neg (by omega)]
    exact h.others w hw (by omega)
  · intro i hi
    rw [h.regular.tableFlags_mapPage hv hs hi, h.tables i hi]
  · intro i hi
    unfold deviceEntry at hi
    rw [← h.below i hi, hinstalled.cr3]
    exact hinstalled.pde_other i (by omega) (by omega)
  · intro g hg
    rw [hinstalled.free] at hg
    split at hg
    · exact h.free g hg
    · exact h.free g (List.mem_of_mem_tail hg)

/-- The loop of `framebuffer_map`, for a screen that ends in front of the window. -/
theorem mapScreen (h : Regular s) (hlow : s.cr3 < lowEnd) (hn : n ≤ 0xFC00)
    (hs : (List.range n).foldlM (mapFbPage phys) s = some s') : ScreenMapped s phys n s' :=
  foldlM_range_keeps (fun k t => ScreenMapped s phys k t) hs (.refl h) fun _ _ _ hk ht =>
    ht.step hlow (by omega)

/-- The loop comes to its end if the pages have a table. -/
theorem exists_mapScreen (h : Regular s) (hlow : s.cr3 < lowEnd) (hn : n ≤ 1024)
    (hroom : s.free ≠ [] ∨ present (pdeAt s.mem s.cr3 deviceEntry) = true) (phys : Nat) :
    ∃ s', (List.range n).foldlM (mapFbPage phys) s = some s' := by
  obtain ⟨s', hs', -⟩ := @foldlM_range _ (mapFbPage phys) n s
    (fun k t => ScreenMapped s phys k t ∧
      (t.free ≠ [] ∨ present (pdeAt t.mem t.cr3 deviceEntry) = true)) ⟨.refl h, hroom⟩ (by
    rintro k t hk ⟨ht, hroom⟩
    have hv : virtBase + k * 0x1000 = deviceEntry * 2 ^ 22 + k * 2 ^ 12 + 0 := by
      unfold virtBase deviceEntry
      omega
    obtain ⟨t', ht', hinstalled⟩ := @SelfMapped.installed t deviceEntry k 0
      (u32 (phys + k * 0x1000)) 0x07 ht.regular.toSelfMapped (by decide) (by omega) (by omega)
      ht.regular.top hroom
    rw [← hv] at ht'
    have hs : mapFbPage phys t k = some t' := by rwa [mapFbPage, virtBase_page (by omega)]
    refine ⟨t', hs, ht.step hlow (by omega) hs, .inr ?_⟩
    rw [hinstalled.cr3, hinstalled.pde]
    split
    · assumption
    · exact (isEntry_map _ _).present)
  exact ⟨s', hs'⟩

/-- The pages of one table need one frame at most. -/
theorem mapScreen_free (h : Regular s) (hlow : s.cr3 < lowEnd) (hn : n ≤ 1024)
    (hs : (List.range n).foldlM (mapFbPage phys) s = some s') : s.free.tail <:+ s'.free := by
  refine (foldlM_range_keeps (fun k t => ScreenMapped s phys k t ∧ s.free.tail <:+ t.free ∧
    (t.free = s.free ∨ present (pdeAt t.mem t.cr3 deviceEntry) = true)) hs
    ⟨.refl h, List.tail_suffix _, .inl rfl⟩ ?_).2.1
  rintro k t t' hk ⟨ht, htail, hroom⟩ hs
  have hpage := hs
  have hv : virtBase + k * 0x1000 = deviceEntry * 2 ^ 22 + k * 2 ^ 12 + 0 := by
    unfold virtBase deviceEntry
    omega
  rw [mapFbPage, virtBase_page (by omega)] at hpage
  have hlt : virtBase + k * 0x1000 < 0xFFC00000 := by
    unfold virtBase
    omega
  have hinstalled := ht.regular.installed hlt hpage
  rw [hv, show (deviceEntry * 2 ^ 22 + k * 2 ^ 12 + 0) / 2 ^ 22 = deviceEntry by omega] at hinstalled
  refine ⟨ht.step hlow (by omega) hs, ?_, .inr ?_⟩
  · rw [hinstalled.free]
    split
    · exact htail
    · next habsent =>
        simp [hroom.resolve_right habsent]
  · rw [hinstalled.cr3, hinstalled.pde]
    split
    · assumption
    · exact (isEntry_map _ _).present

end Screen

/-- `kernel_after_paging` maps the pages of the screen behind those of the card. -/
theorem initDevices_cases {bar0 : Option Nat} {d d' : Rtl8139} {fb fb' : Framebuffer} {s s' : Vm}
    {r : Int} (hs : initDevices bar0 d fb s = some (r, d', fb', s')) :
    ∃ s₁, rtl8139Init bar0 d s = some (r, d', s₁) ∧
      (List.range (pagesMapped fb)).foldlM (mapFbPage fb.physAddr) s₁ = some s' := by
  obtain ⟨⟨r₁, d₁, s₁⟩, hinit, hs⟩ := Option.bind_eq_some_iff.mp hs
  unfold pagesMapped
  dsimp only at hs
  split at hs
  · next hphys =>
      obtain ⟨⟨fb₁, s₂⟩, hmap, hs⟩ := Option.bind_eq_some_iff.mp hs
      cases hs
      refine ⟨s₁, hinit, ?_⟩
      unfold framebufferMap at hmap
      split at hmap
      · next haddr =>
          cases hmap
          rw [if_pos (.inr haddr)]
          rfl
      · next haddr =>
          obtain ⟨s₃, hloop, hs⟩ := Option.bind_eq_some_iff.mp hmap
          cases hs
          rw [if_neg (by simp [hphys, haddr])]
          exact hloop
  · next hphys =>
      cases hs
      rw [if_pos (.inl (not_not.mp hphys))]
      exact ⟨_, hinit, rfl⟩

end SRos.Drivers
