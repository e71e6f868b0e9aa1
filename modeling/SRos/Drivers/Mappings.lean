import SRos.Drivers.Screen
import SRos.Paging.Guard

/-!
# The screen over the buffers of the card

The screen starts at `0xF0000000` and the buffers of the card at `0xF0040000`, which is page 64 of
the screen. Both drivers choose their addresses by constants.
-/

namespace SRos.Drivers

open Gui Paging

/-- The buffers of the card translate to the frames that the driver has recorded. -/
def BuffersKept (d : Rtl8139) (s : Vm) : Prop :=
  (∀ i < 4, s.translate (0xF0040000 + i * 0x1000) = some (d.txPhys i)) ∧
    s.translate 0xF0050000 = some d.rxPhys

/-- Page `k` of the screen is not mapped, or happens to be the frame `f`. -/
def SparesPage (fb : Framebuffer) (k f : Nat) : Prop :=
  pagesMapped fb ≤ k ∨ frameOf (u32 (fb.physAddr + k * 0x1000)) = f

section Overlap

variable {s s₁ s' : Vm} {pages : List (Nat × Nat)} {fb fb' : Framebuffer} {d d' : Rtl8139}

/-- A page of the card behind the screen's base, once the screen is mapped. -/
theorem ScreenMapped.kept_iff {k f : Nat} (hcard : DevicePages s pages s₁)
    (h : ScreenMapped s₁ fb.physAddr (pagesMapped fb) s') (hp : (virtBase + k * 0x1000, f) ∈ pages) :
    s'.translate (virtBase + k * 0x1000) = some f ↔ SparesPage fb k f := by
  have hentry := hcard.entry _ hp
  unfold deviceEntry virtBase at hentry
  have hpage : (virtBase + k * 0x1000) / 4096 = 0xF0000 + k := by
    unfold virtBase
    omega
  have hoffset : (virtBase + k * 0x1000) &&& 0xFFF = 0 := by
    have hmask : (virtBase + k * 0x1000) &&& 0xFFF = (virtBase + k * 0x1000) % 4096 :=
      Nat.and_two_pow_sub_one_eq_mod _ 12
    unfold virtBase at hmask ⊢
    omega
  rw [translate_walk, hoffset]
  by_cases hk : k < pagesMapped fb
  · rw [h.maps k hk _ hpage]
    simp [SparesPage, Nat.not_le.mpr hk]
  · have hcardpage := hcard.maps _ hp _ rfl
    rw [h.others _ (by unfold virtBase; omega) (.inr (by omega)), hcardpage]
    simp [SparesPage, Nat.not_lt.mp hk]

theorem pagesMapped_le (hsize : fb.pitch * fb.height ≤ 2 ^ 26) : pagesMapped fb ≤ 0x4000 := by
  unfold pagesMapped
  split
  · exact Nat.zero_le _
  · unfold fbPages u32
    omega

/-- The pages that both drivers map, in the order of the calls. -/
theorem exists_devicePages {bar0 : Option Nat} (h : Regular s) (hlow : s.cr3 < lowEnd)
    (hsize : fb.pitch * fb.height ≤ 2 ^ 26)
    (hs : initDevices bar0 d fb s = some (0, d', fb', s')) :
    ∃ s₁ f₂ f₃, DevicePages s (txPages d' 0 4 ++ rxPages d'.rxPhys f₂ f₃) s₁ ∧
      ScreenMapped s₁ fb.physAddr (pagesMapped fb) s' := by
  obtain ⟨s₁, hcard, hscreen⟩ := initDevices_cases hs
  have hpages := pagesMapped_le hsize
  rcases rtl8139Init_cases h hlow hcard with
    ⟨-, -, -, f₂, f₃, hmapped⟩ | ⟨hr, -⟩ | ⟨hr, -⟩
  · have hlow' : s₁.cr3 < lowEnd := by rwa [hmapped.cr3]
    exact ⟨s₁, f₂, f₃, hmapped, mapScreen hmapped.regular hlow' (by omega) hscreen⟩
  · cases hr
  · cases hr

theorem txPage_mem {i f f₂ f₃ : Nat} (hi : i < 4) :
    (virtBase + (64 + i) * 0x1000, d.txPhys i) ∈ txPages d 0 4 ++ rxPages f f₂ f₃ := by
  refine List.mem_append_left _ (List.mem_map.mpr ⟨i, ?_, ?_⟩)
  · simpa using hi
  · unfold virtBase
    congr 1
    omega

/-- For every allocator and every screen of at most 64 MB: when both drivers have come to their
end, the buffers of the card are still where the driver put them if and only if the screen ends in
front of them or lies in their frames. The frames are those on top of the allocator. -/
theorem buffers_kept_iff {bar0 : Option Nat} (h : Regular s) (hlow : s.cr3 < lowEnd)
    (hsize : fb.pitch * fb.height ≤ 2 ^ 26)
    (hs : initDevices bar0 d fb s = some (0, d', fb', s')) :
    BuffersKept d' s' ↔
      (∀ i < 4, SparesPage fb (64 + i) ((pageFrames s deviceEntry).getD i 0)) ∧
        SparesPage fb 80 ((pageFrames s deviceEntry).getD 4 0) := by
  obtain ⟨s₁, f₂, f₃, hcard, hscreen⟩ := exists_devicePages h hlow hsize hs
  have hframes := hcard.frames
  have htx : ∀ i < 4, (pageFrames s deviceEntry).getD i 0 = d'.txPhys i := by
    intro i hi
    rw [hframes]
    match i, hi with
    | 0, _ | 1, _ | 2, _ | 3, _ => rfl
  have hrx : (pageFrames s deviceEntry).getD 4 0 = d'.rxPhys := by
    rw [hframes]
    rfl
  have hrxPage : (virtBase + 80 * 0x1000, d'.rxPhys) ∈
      txPages d' 0 4 ++ rxPages d'.rxPhys f₂ f₃ :=
    List.mem_append_right _ List.mem_cons_self
  refine and_congr (forall_congr' fun i => forall_congr' fun hi => ?_) ?_
  · rw [htx i hi, ← hscreen.kept_iff hcard (txPage_mem hi),
      show virtBase + (64 + i) * 0x1000 = 0xF0040000 + i * 0x1000 by unfold virtBase; omega]
  · rw [hrx, ← hscreen.kept_iff hcard hrxPage]
    rfl

end Overlap

/-! ## The screen of the kernel -/

/-- The allocator after boot has frames for the card, and all of them in the first 4 MB. -/
theorem boot_devices (m : Nat → UInt8) : ∃ s, boot m = some s ∧ Regular s ∧ s.cr3 < lowEnd ∧
    0 ∉ s.free ∧ 8 < (pageFrames s deviceEntry).length ∧ ∀ f ∈ s.free, f < lowEnd := by
  obtain ⟨s, hboot, -, hlaid, -, hlen⟩ := boot_laid m 0
  have hfree : ∀ f ∈ s.free, f ∈ bootFrames := fun f hf =>
    hlaid.stacked.boot f (by simp [hlaid.free_of_mem hf])
  refine ⟨s, hboot, hlaid.guarded.toRegular, hlaid.guarded.low,
    fun hzero => zero_not_mem_bootFrames (hfree 0 hzero), ?_,
    fun f hf => (isFrame_of_mem (hfree f hf)).2⟩
  unfold pageFrames
  split
  · omega
  · have herase := List.le_length_eraseIdx s.free 1
    omega

/-- A run of both drivers on a machine with a card. -/
theorem exists_initDevices {s : Vm} {fb : Framebuffer} (h : Regular s) (hlow : s.cr3 < lowEnd)
    (hzero : 0 ∉ s.free) (hroom : 8 < (pageFrames s deviceEntry).length)
    (hpages : fbPages fb ≤ 1024) (hphys : fb.physAddr ≠ 0) (haddr : fb.addr = 0) (d : Rtl8139) :
    ∃ d' fb' s', initDevices (some 0xC001) d fb s = some (0, d', fb', s') := by
  have hfound : cardFound (some 0xC001) = true := by decide
  obtain ⟨d', s₁, hcard⟩ := exists_rtl8139Init h hlow hzero hroom hfound d
  obtain ⟨-, -, -, f₂, f₃, hmapped⟩ := (rtl8139Init_cases h hlow hcard).resolve_right fun hbad =>
    hbad.elim (fun hr => by cases hr.1) fun hr => by cases hr.1
  obtain ⟨s', hscreen⟩ := exists_mapScreen hmapped.regular (by rwa [hmapped.cr3]) hpages
    (.inr (hmapped.table (.inr (by simp [rxPages])))) fb.physAddr
  refine ⟨d', { fb with addr := virtBase }, s', ?_⟩
  simp only [initDevices, hcard, framebufferMap, hphys, haddr, hscreen, Option.bind_eq_bind,
    Option.bind_some, ne_eq, not_true_eq_false, not_false_eq_true, if_true, if_false]
  rfl

/-- The default screen of 1024 times 768 pixels reaches over the buffers. -/
theorem default_screen_overlaps : ∃ s d fb' s', boot (fun _ => 0) = some s ∧ Regular s ∧
    initDevices (some 0xC001) ⟨0, fun _ => 0, fun _ => 0, 0, 0, 0, fun _ => 0, 0⟩
      (framebufferInit 0xFD000000 1024 768 4096 32) s = some (0, d, fb', s') ∧
    ¬ BuffersKept d s' := by
  obtain ⟨s, hboot, hregular, hlow, hzero, hroom, hframes⟩ := boot_devices fun _ => 0
  obtain ⟨d, fb', s', hs⟩ := @exists_initDevices s (framebufferInit 0xFD000000 1024 768 4096 32)
    hregular hlow hzero hroom (by decide) (by decide) rfl
    ⟨0, fun _ => 0, fun _ => 0, 0, 0, 0, fun _ => 0, 0⟩
  obtain ⟨s₁, f₂, f₃, hcard, hscreen⟩ := exists_devicePages hregular hlow (by decide) hs
  refine ⟨s, d, fb', s', hboot, hregular, hs, fun hkept => ?_⟩
  have hmem := @txPage_mem d 0 d.rxPhys f₂ f₃ (by decide)
  have hlt := hframes _ (hcard.fresh _ hmem).2.1
  rcases (hscreen.kept_iff hcard hmem).mp (hkept.1 0 (by decide)) with hend | hframe
  · exact absurd hend (by decide)
  · rw [← hframe] at hlt
    exact absurd hlt (by decide)

/-- A screen of 320 times 200 pixels with a byte each ends in front of them. -/
theorem small_screen_spares : ∃ s d fb' s', boot (fun _ => 0) = some s ∧
    initDevices (some 0xC001) ⟨0, fun _ => 0, fun _ => 0, 0, 0, 0, fun _ => 0, 0⟩
      (framebufferInit 0xFD000000 320 200 320 8) s = some (0, d, fb', s') ∧ BuffersKept d s' := by
  obtain ⟨s, hboot, hregular, hlow, hzero, hroom, -⟩ := boot_devices fun _ => 0
  obtain ⟨d, fb', s', hs⟩ := @exists_initDevices s (framebufferInit 0xFD000000 320 200 320 8)
    hregular hlow hzero hroom (by decide) (by decide) rfl
    ⟨0, fun _ => 0, fun _ => 0, 0, 0, 0, fun _ => 0, 0⟩
  refine ⟨s, d, fb', s', hboot, hs, (buffers_kept_iff hregular hlow (by decide) hs).mpr ⟨?_, ?_⟩⟩
  · exact fun i _ => .inl (Nat.le_trans (by decide) (Nat.le_add_right 64 i))
  · exact .inl (by decide)

end SRos.Drivers
