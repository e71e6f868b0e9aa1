import SRos.Paging.Regular

/-!
# The permissions of a mapped page

A page is writable, or open to ring 3, if both of its entries say so. `paging_map_page` writes
the requested flags to the entry of the page, but to the entry of the directory only when it
creates the table: what a page gets depends on the first page mapped in its 4 MB.
-/

namespace SRos.Paging

open Bytes

def writable (e : Nat) : Bool := e &&& 0x02 != 0

/-- The effective permissions of a mapped page: writable, and open to ring 3. -/
def permissions (s : Vm) (v : Nat) : Option (Bool × Bool) :=
  (walk s v).map fun (_, pte, pde) => (writable pde && writable pte, user pde && user pte)

/-- A call of `paging_map_page`. -/
structure MapCall where
  virt : Nat
  phys : Nat
  flags : Nat

def mapStep (s : Vm) (c : MapCall) : Option Vm := pagingMapPage c.virt c.phys c.flags s

/-- The call is below the window, and leaves the directory at its own address. -/
def mapOk (s : Vm) (c : MapCall) : Prop :=
  c.virt < 0xFFC00000 ∧ (c.virt / 4096 = s.cr3 / 4096 → frameOf c.phys = s.cr3)

/-- The entry of the directory, if there is one, has what the page asks for. -/
def Grants (s : Vm) (v flags : Nat) : Prop :=
  present (pdeAt s.mem s.cr3 (v >>> 22)) = true →
    (writable flags = true → writable (pdeAt s.mem s.cr3 (v >>> 22)) = true) ∧
    (user flags = true → user (pdeAt s.mem s.cr3 (v >>> 22)) = true)

/-- What holds of the boot directory and the allocator between calls. -/
structure Standing (s : Vm) : Prop extends SelfMapped s where
  cr3 : s.cr3 = bootDir
  nodup : s.free.Nodup
  unused : ∀ f ∈ s.free, frameOf f = f ∧ Unused s f

theorem boot_standing (m : Nat → UInt8) : ∃ s, boot m = some s ∧ Standing s := by
  obtain ⟨m', hm', hboot⟩ := boot_eq m
  have hstack := bootStack 0
  refine ⟨_, hboot, hm'.selfMapped, rfl, hstack.nodup, ?_⟩
  intro f hf
  have hframe : ∀ f ∈ lateFrames.reverse ++ [0x112000, 0x111000], frameOf f = f := by
    decide +kernel
  obtain ⟨-, hdir, htable⟩ := bootOwn_free_iff.mp ((hstack.mem_iff f).mp hf)
  exact ⟨hframe f hf, hm'.unused hdir htable⟩

section Step

variable {s s' : Vm} {v p flags : Nat}

theorem Standing.regular (h : Standing s) : Regular s := ⟨h.toSelfMapped, h.nodup, h.unused⟩

/-- Every admitted call keeps what holds between calls. -/
theorem Standing.step {c : MapCall} (h : Standing s) (hok : mapOk s c)
    (hs : mapStep s c = some s') : Standing s' := by
  obtain ⟨hv, hkeep⟩ := hok
  have hlow : s.cr3 < 0xFFC00000 := by
    rw [h.cr3]
    decide
  have hregular := h.regular.step hlow hv hkeep hs
  have hcr3 := (h.regular.installed hv hs).cr3
  exact ⟨hregular.toSelfMapped, hcr3.trans h.cr3, hregular.nodup, hregular.unused⟩

theorem Standing.reach {s₀ : Vm} (h : Reach mapStep mapOk s₀ s) (h₀ : Standing s₀) : Standing s :=
  h.invariant h₀ fun _ _ _ hs hok hstep => hs.step hok hstep

theorem writable_mapFlags (flags : Nat) : writable (mapFlags flags) = writable flags := by
  unfold writable mapFlags
  rw [Nat.and_or_distrib_right, Nat.and_assoc]
  simp

theorem user_mapFlags (flags : Nat) : user (mapFlags flags) = user flags := by
  unfold user mapFlags
  rw [Nat.and_or_distrib_right, Nat.and_assoc]
  simp

theorem writable_flagsOf (e : Nat) : writable (flagsOf e) = writable e := by
  unfold writable flagsOf
  rw [Nat.and_assoc]
  simp

/-- What the page gets: the requested permissions, cut down to those of an entry that was there
before. -/
theorem Standing.permissions (h : Standing s) (hv : v < 0xFFC00000)
    (hs : pagingMapPage v p flags s = some s') :
    permissions s' v = some (if present (pdeAt s.mem s.cr3 (v >>> 22)) then
      (writable (pdeAt s.mem s.cr3 (v >>> 22)) && writable flags,
        user (pdeAt s.mem s.cr3 (v >>> 22)) && user flags)
      else (writable flags, user flags)) := by
  have hwalk := @Installed.walk_page s _ _ (v % 4096) p flags s' _ (h.regular.installed hv hs) h.dir
    (by omega) (by omega)
  rw [← vaddr_eq] at hwalk
  rw [Paging.permissions, hwalk, Nat.shiftRight_eq_div_pow, Option.map_some]
  dsimp only
  split
  · rw [writable_flagsOf, writable_mapFlags, user_flagsOf, user_mapFlags]
  · rw [writable_mapFlags, user_mapFlags, Bool.and_self, Bool.and_self]

theorem Standing.permissions_iff (h : Standing s) (hv : v < 0xFFC00000)
    (hs : pagingMapPage v p flags s = some s') :
    Paging.permissions s' v = some (writable flags, user flags) ↔ Grants s v flags := by
  rw [h.permissions hv hs, Option.some.injEq]
  unfold Grants
  split
  · next hpde =>
      rw [Prod.mk.injEq, Bool.and_eq_right_iff_imp, Bool.and_eq_right_iff_imp]
      exact ⟨fun hbits _ => hbits, fun hbits => hbits hpde⟩
  · next hpde => exact ⟨fun _ hpresent => absurd hpresent hpde, fun _ => rfl⟩

end Step

/-- In every run that leaves the directory at its own address, a call gives its page the
requested permissions if and only if an entry of the directory that was there before has them
too. A call fails only for want of a frame. -/
theorem requested_permissions {m : Nat → UInt8} {s₀ s : Vm} (hboot : boot m = some s₀)
    (h : Reach mapStep mapOk s₀ s) {v : Nat} (hv : v < 0xFFC00000) (p flags : Nat) :
    (s.free ≠ [] ∨ present (pdeAt s.mem s.cr3 (v >>> 22)) = true →
      (pagingMapPage v p flags s).isSome = true) ∧
    ∀ s', pagingMapPage v p flags s = some s' →
      (permissions s' v = some (writable flags, user flags) ↔ Grants s v flags) := by
  obtain ⟨s₁, hs₁, hstanding⟩ := boot_standing m
  rw [hboot, Option.some.injEq] at hs₁
  subst hs₁
  have hs := hstanding.reach h
  constructor
  · intro hroom
    rw [Nat.shiftRight_eq_div_pow] at hroom
    obtain ⟨s', hs', -⟩ := @SelfMapped.installed s (v / 2 ^ 22) (v / 2 ^ 12 % 1024) (v % 4096) p
      flags hs.toSelfMapped (by omega) (by omega) (by omega) hs.regular.top hroom
    rw [← vaddr_eq] at hs'
    rw [hs']
    rfl
  · exact fun s' hs' => hs.permissions_iff hv hs'

/-- The user stack of the first task, in a table of its own. -/
theorem requested_permissions_stack : ∃ s s', boot (fun _ => 0) = some s ∧
    pagingMapPage 0xDFFFF000 0x112000 0x07 s = some s' ∧
    permissions s' 0xDFFFF000 = some (true, true) := by
  obtain ⟨m, hm, hboot⟩ := boot_eq fun _ => 0
  obtain ⟨hreturns, hexact⟩ := requested_permissions hboot .refl
    (show 0xDFFFF000 < 0xFFC00000 by decide) 0x112000 0x07
  obtain ⟨s', hs'⟩ := Option.isSome_iff_exists.mp (hreturns (.inl (by simp [lateFrames])))
  refine ⟨_, s', hboot, hs', (hexact s' hs').mpr ?_⟩
  intro hpresent
  dsimp only at hpresent
  rw [hm.rest _ (by decide) (by decide)] at hpresent
  cases hpresent

/-- The entry that the first page of 4 MB leaves. -/
theorem Standing.first_page {s s' : Vm} {v p flags : Nat} (h : Standing s) (hv : v < 0xFFC00000)
    (hs : pagingMapPage v p flags s = some s')
    (habsent : present (pdeAt s.mem s.cr3 (v / 2 ^ 22)) = false) :
    present (pdeAt s'.mem s'.cr3 (v / 2 ^ 22)) = true ∧
      writable (pdeAt s'.mem s'.cr3 (v / 2 ^ 22)) = writable flags ∧
      user (pdeAt s'.mem s'.cr3 (v / 2 ^ 22)) = user flags := by
  have hinstalled := h.regular.installed hv hs
  have hentry := isEntry_map (s.free.headD 0) flags
  rw [hinstalled.cr3, hinstalled.pde, habsent, if_neg (by decide)]
  refine ⟨hentry.present, ?_, ?_⟩
  · rw [← writable_flagsOf, hentry.flags, writable_mapFlags]
  · rw [← user_flagsOf, hentry.flags, user_mapFlags]

/-- `rtl8139_init` maps its first buffer for the kernel alone; the screen, which
`framebuffer_map` then maps for ring 3 in the same 4 MB, stays closed to it. -/
theorem screen_not_user : ∃ s₀ s s', boot (fun _ => 0) = some s₀ ∧
    Reach mapStep (fun _ c => c.virt < 0xFFC00000) s₀ s ∧
    pagingMapPage 0xF0000000 0xFD000000 0x07 s = some s' ∧
    permissions s' 0xF0000000 = some (true, false) ∧
    permissions s' 0xF0000000 ≠ some (writable 0x07, user 0x07) := by
  obtain ⟨s₀, hboot, h₀⟩ := boot_standing fun _ => 0
  obtain ⟨m, hm, hboot'⟩ := boot_eq fun _ => 0
  rw [hboot, Option.some.injEq] at hboot'
  have habsent : present (pdeAt s₀.mem s₀.cr3 0x3C0) = false := by
    rw [hboot']
    dsimp only
    rw [hm.rest _ (by decide) (by decide)]
    rfl
  have hfree : s₀.free ≠ [] := by
    rw [hboot']
    simp [lateFrames]
  -- the buffer at 0xF0040000
  obtain ⟨s, hs, -⟩ := @SelfMapped.installed s₀ 0x3C0 0x40 0 0x112000 0x03 h₀.toSelfMapped
    (by decide) (by decide) (by decide) h₀.regular.top (.inl hfree)
  let buffer : MapCall := ⟨0xF0040000, 0x112000, 0x03⟩
  have hstanding : Standing s := by
    have hok : mapOk s₀ buffer := by
      refine ⟨by decide, ?_⟩
      rw [h₀.cr3]
      decide
    exact h₀.step hok hs
  obtain ⟨hpresent, hwritable, huser⟩ := h₀.first_page (by decide) hs habsent
  change present (pdeAt s.mem s.cr3 (0xF0000000 >>> 22)) = true at hpresent
  change writable (pdeAt s.mem s.cr3 (0xF0000000 >>> 22)) = true at hwritable
  change user (pdeAt s.mem s.cr3 (0xF0000000 >>> 22)) = false at huser
  -- the screen at 0xF0000000
  obtain ⟨s', hs', -⟩ := @SelfMapped.installed s 0x3C0 0 0 0xFD000000 0x07 hstanding.toSelfMapped
    (by decide) (by decide) (by decide) hstanding.regular.top (.inr hpresent)
  change pagingMapPage 0xF0000000 0xFD000000 0x07 s = some s' at hs'
  have hresult := hstanding.permissions (by decide) hs'
  rw [if_pos hpresent, hwritable, huser] at hresult
  refine ⟨s₀, s, s', hboot, .step (a := buffer) .refl (by decide) hs, hs', hresult, ?_⟩
  rw [hresult]
  decide

end SRos.Paging
