import SRos.Paging.Translate

/-!
# Mapping a page

The kernel's view of memory: the first entry of the directory maps the first 4 MB to themselves
and the last one the directory itself. As long as these two entries and the table of the first
stay as they are, the directory and the free frames can be written at their physical addresses
and the tables through the window.
-/

namespace SRos.Paging

open Bytes Loop

/-- The first 4 MB, which the boot code maps to themselves. -/
def lowEnd : Nat := 0x400000

def IsFrame (f : Nat) : Prop := f % 4096 = 0 ∧ f < lowEnd

theorem IsFrame.lt {f : Nat} (h : IsFrame f) : f < 2 ^ 32 := by
  have := h.2
  unfold lowEnd at this
  omega

theorem IsFrame.self {f : Nat} (h : IsFrame f) : frameOf f = f := frameOf_self h.1 h.lt

/-- The part of an address space that the kernel relies on, with its identity table at `t₀`. -/
structure Core (t₀ : Nat) (s : Vm) : Prop where
  dir : IsFrame s.cr3
  table : IsFrame t₀
  first : present (pdeAt s.mem s.cr3 0) = true ∧ frameOf (pdeAt s.mem s.cr3 0) = t₀
  self : pdeAt s.mem s.cr3 1023 = s.cr3 ||| 0x03
  identity : ∀ j < 1024, present (load32 s.mem (t₀ + 4 * j)) = true ∧
    frameOf (load32 s.mem (t₀ + 4 * j)) = j * 4096

/-- An entry whose flags have the present bit. -/
theorem present_or {f fl : Nat} (hf : f % 4096 = 0) (hfl : fl < 4096) :
    present (f ||| fl) = present fl := by
  rw [Bool.eq_iff_iff, present_iff, present_iff, or_flags hf hfl]
  omega

/-- The entries that the boot code writes. -/
theorem kernelEntry {f : Nat} (hf : f % 4096 = 0) (hlt : f < 2 ^ 32) :
    present (f ||| 0x03) = true ∧ frameOf (f ||| 0x03) = f :=
  ⟨(present_or hf (by decide)).trans rfl, frameOf_or hf hlt (by decide)⟩

theorem present_or_user (e : Nat) : present (e ||| 0x04) = present e := by
  have hflag : (4 &&& 0x01 : Nat) = 0 := by decide
  unfold present
  rw [Nat.and_or_distrib_right, hflag, Nat.or_zero]

theorem frameOf_or_user (e : Nat) : frameOf (e ||| 0x04) = frameOf e := by
  have hflag : (4 &&& 0xFFFFF000 : Nat) = 0 := by decide
  unfold frameOf
  rw [Nat.and_or_distrib_right, hflag, Nat.or_zero]

theorem or_user_lt {e : Nat} (he : e < 2 ^ 32) : e ||| 0x04 < 2 ^ 32 :=
  Nat.or_lt_two_pow he (by decide)

/-- A first entry with an identity table maps the first 4 MB to themselves. -/
theorem translate_low {t₀ : Nat} {s : Vm} (hcr3 : frameOf s.cr3 = s.cr3)
    (hfirst : present (pdeAt s.mem s.cr3 0) = true ∧ frameOf (pdeAt s.mem s.cr3 0) = t₀)
    (hidentity : ∀ j < 1024, present (load32 s.mem (t₀ + 4 * j)) = true ∧
      frameOf (load32 s.mem (t₀ + 4 * j)) = j * 4096) {a : Nat}
    (ha : a < lowEnd) : s.translate a = some a := by
  unfold lowEnd at ha
  have hsplit : a = 0 * 2 ^ 22 + a / 4096 * 2 ^ 12 + a % 4096 := by omega
  obtain ⟨hpresent, hframe⟩ := hidentity (a / 4096) (by omega)
  have hpte : pteAt s.mem s.cr3 0 (a / 4096) = load32 s.mem (t₀ + 4 * (a / 4096)) := by
    rw [pteAt, hfirst.2]
  have hmapped : mapped s.mem s.cr3 0 (a / 4096) = true := by
    rw [mapped_iff, hpte]
    exact ⟨hfirst.1, hpresent⟩
  have htranslate := @translate_split s 0 (a / 4096) (a % 4096) hcr3 (by omega) (by omega)
  rw [← hsplit, hmapped, hpte, hframe] at htranslate
  rw [htranslate]
  exact congrArg some (by omega)

/-- The first 4 MB under the entries of the boot code. -/
theorem translate_identity {t₀ : Nat} {s : Vm} (hcr3 : frameOf s.cr3 = s.cr3) (htable : IsFrame t₀)
    (hfirst : pdeAt s.mem s.cr3 0 = t₀ ||| 0x03)
    (hidentity : ∀ j < 1024, load32 s.mem (t₀ + 4 * j) = j * 4096 ||| 0x03) {a : Nat}
    (ha : a < lowEnd) : s.translate a = some a := by
  have hone : present (pdeAt s.mem s.cr3 0) = true ∧ frameOf (pdeAt s.mem s.cr3 0) = t₀ := by
    rw [hfirst]
    exact kernelEntry htable.1 htable.lt
  apply translate_low hcr3 hone _ ha
  intro j hj
  rw [hidentity j hj]
  exact kernelEntry (by omega) (by omega)

namespace Core

variable {t₀ : Nat} {s : Vm}

theorem cr3_frame (h : Core t₀ s) : frameOf s.cr3 = s.cr3 := h.dir.self

theorem low (h : Core t₀ s) {a : Nat} (ha : a < lowEnd) : s.translate a = some a :=
  translate_low h.cr3_frame h.first h.identity ha

/-- The window shows the table behind every present entry. -/
theorem window (h : Core t₀ s) {i o : Nat} (hi : i < 1024) (ho : o < 4096)
    (hpde : present (pdeAt s.mem s.cr3 i) = true) :
    s.translate (selfMap i + o) = some (frameOf (pdeAt s.mem s.cr3 i) + o) := by
  have haddr : selfMap i + o = 1023 * 2 ^ 22 + i * 2 ^ 12 + o := by
    unfold selfMap
    omega
  have hpte : pteAt s.mem s.cr3 1023 i = pdeAt s.mem s.cr3 i := by
    rw [pteAt, h.self, frameOf_or h.dir.1 h.dir.lt (by decide)]
    rfl
  have hmapped : mapped s.mem s.cr3 1023 i = true := by
    rw [mapped_iff, hpte, h.self, present_or h.dir.1 (by decide)]
    exact ⟨rfl, hpde⟩
  rw [haddr, translate_split h.cr3_frame hi ho, hmapped, hpte]
  rfl

theorem readLow (h : Core t₀ s) {f o : Nat} (hf : IsFrame f) (ho : o < 4096) :
    s.read32 (f + o) = some (load32 s.mem (f + o)) := by
  obtain ⟨haligned, hlt⟩ := hf
  unfold lowEnd at hlt
  rw [Vm.read32, h.low (by unfold lowEnd; omega), Option.map_some]

theorem writeLow (h : Core t₀ s) {f o : Nat} (hf : IsFrame f) (ho : o < 4096) (x : Nat) :
    s.write32 (f + o) x = some { s with mem := store32 s.mem (f + o) x } := by
  obtain ⟨haligned, hlt⟩ := hf
  unfold lowEnd at hlt
  rw [Vm.write32, h.low (by unfold lowEnd; omega), Option.map_some]

theorem writeWindow (h : Core t₀ s) {i o : Nat} (hi : i < 1024) (ho : o < 4096)
    (hpde : present (pdeAt s.mem s.cr3 i) = true) (x : Nat) :
    s.write32 (selfMap i + o) x =
      some { s with mem := store32 s.mem (frameOf (pdeAt s.mem s.cr3 i) + o) x } := by
  rw [Vm.write32, h.window hi ho hpde, Option.map_some]

/-- The kernel's view only depends on the memory of the directory and of the identity table. -/
theorem congr {m : Nat → UInt8} {fs : List Nat} (h : Core t₀ s)
    (hfirst : pdeAt m s.cr3 0 = pdeAt s.mem s.cr3 0)
    (hself : pdeAt m s.cr3 1023 = pdeAt s.mem s.cr3 1023)
    (htable : ∀ j < 1024, load32 m (t₀ + 4 * j) = load32 s.mem (t₀ + 4 * j)) :
    Core t₀ { s with mem := m, free := fs } where
  dir := h.dir
  table := h.table
  first := by
    dsimp only
    rw [hfirst]
    exact h.first
  self := hself.trans h.self
  identity := by
    intro j hj
    dsimp only
    rw [htable j hj]
    exact h.identity j hj

/-- Frames that are neither the directory nor the identity table can change. -/
theorem agree {m : Nat → UInt8} {fs gs : List Nat} (h : Core t₀ s) (hmem : AgreeOff gs s.mem m)
    (haligned : ∀ g ∈ gs, g % 4096 = 0) (hdir : s.cr3 ∉ gs) (htable : t₀ ∉ gs) :
    Core t₀ { s with mem := m, free := fs } :=
  h.congr (hmem.word haligned h.dir.1 hdir (by omega))
    (hmem.word haligned h.dir.1 hdir (by omega))
    fun _ hj => hmem.word haligned h.table.1 htable (by omega)

/-- An entry of the directory other than the first and the last can change. -/
theorem setPde (h : Core t₀ s) (hne : t₀ ≠ s.cr3) {i : Nat} (hi₀ : 1 ≤ i) (hi : i < 1023) (x : Nat)
    (fs : List Nat) : Core t₀ { s with mem := store32 s.mem (s.cr3 + 4 * i) x, free := fs } := by
  have htable := h.table.1
  have hdir := h.dir.1
  exact h.congr (load32_store32_ne (by omega)) (load32_store32_ne (by omega))
    fun j hj => load32_store32_ne (by omega)

/-- `paging_map_user` for an address of the first 4 MB. -/
theorem mapUser (h : Core t₀ s) (hne : t₀ ≠ s.cr3) {v : Nat} (hv : v < lowEnd) :
    ∃ m, pagingMapUser v s = some { s with mem := m } ∧ Core t₀ { s with mem := m } ∧
      ∀ i, 1 ≤ i → i < 1024 → pdeAt m s.cr3 i = pdeAt s.mem s.cr3 i := by
  have hv' : v < 0x400000 := hv
  have hdir := h.dir.1
  have htable := h.table.1
  have hpd : v >>> 22 = 0 := by
    rw [Nat.shiftRight_eq_div_pow]
    omega
  have hpt : v >>> 12 &&& 0x3FF = v / 4096 := by
    rw [Nat.shiftRight_eq_div_pow, Nat.and_two_pow_sub_one_eq_mod _ 10]
    omega
  have hj : 4 * (v / 4096) < 4096 := by omega
  let pde := pdeAt s.mem s.cr3 0
  let pte := load32 s.mem (t₀ + 4 * (v / 4096))
  let m₁ := store32 s.mem (t₀ + 4 * (v / 4096)) (pte ||| 0x04)
  let m₂ := store32 m₁ (s.cr3 + 4 * 0) (pde ||| 0x04)
  have hpde₁ : ∀ i < 1024, pdeAt m₁ s.cr3 i = pdeAt s.mem s.cr3 i :=
    fun i hi => load32_store32_ne (by omega)
  have hidentity₁ : ∀ j < 1024, present (load32 m₁ (t₀ + 4 * j)) = true ∧
      frameOf (load32 m₁ (t₀ + 4 * j)) = j * 4096 := by
    intro j hj
    by_cases hjv : j = v / 4096
    · rw [hjv, load32_store32_same _ _ (or_user_lt (load32_lt _ _)), present_or_user, frameOf_or_user]
      exact h.identity _ (by omega)
    · rw [load32_store32_ne (by omega)]
      exact h.identity j hj
  have hcore₁ : Core t₀ { s with mem := m₁ } :=
    ⟨h.dir, h.table, by rw [hpde₁ 0 (by omega)]; exact h.first,
      (hpde₁ 1023 (by omega)).trans h.self, hidentity₁⟩
  have hentry₂ : pdeAt m₂ s.cr3 0 = pde ||| 0x04 :=
    load32_store32_same _ _ (or_user_lt (load32_lt _ _))
  have hpde₂ : ∀ i, 1 ≤ i → i < 1024 → pdeAt m₂ s.cr3 i = pdeAt s.mem s.cr3 i := by
    intro i hi₀ hi
    have hstore : pdeAt m₂ s.cr3 i = pdeAt m₁ s.cr3 i := load32_store32_ne (by omega)
    rw [hstore, hpde₁ i hi]
  have hcore₂ : Core t₀ { s with mem := m₂ } := by
    refine ⟨h.dir, h.table, ?_, (hpde₂ 1023 (by omega) (by omega)).trans h.self, ?_⟩
    · dsimp only
      rw [hentry₂, present_or_user, frameOf_or_user]
      exact h.first
    · intro j hj
      have hstore : load32 m₂ (t₀ + 4 * j) = load32 m₁ (t₀ + 4 * j) := load32_store32_ne (by omega)
      dsimp only
      rw [hstore]
      exact hidentity₁ j hj
  refine ⟨m₂, ?_, hcore₂, hpde₂⟩
  have hread : s.read32 (s.cr3 + 4 * 0) = some pde := h.readLow h.dir (by omega)
  have hread' : Vm.read32 { s with mem := m₁ } (s.cr3 + 4 * 0) = some pde :=
    (hcore₁.readLow h.dir (by omega)).trans (congrArg some (hpde₁ 0 (by omega)))
  have hpte : s.read32 (t₀ + 4 * (v / 4096)) = some pte := h.readLow h.table hj
  have hwrite : s.write32 (t₀ + 4 * (v / 4096)) (pte ||| 0x04) = some { s with mem := m₁ } :=
    h.writeLow h.table hj _
  have hwrite' : Vm.write32 { s with mem := m₁ } (s.cr3 + 4 * 0) (pde ||| 0x04) =
      some { s with mem := m₂ } := hcore₁.writeLow h.dir (by omega) _
  have hframe : frameOf pde = t₀ := h.first.2
  unfold pagingMapUser
  simp only [hpd, hpt, hread, Option.bind_eq_bind, Option.bind_some, hframe, hpte, hwrite, hread']
  exact hwrite'

/-- Clearing a table through the window. -/
theorem clearWindow (h : Core t₀ s) {i t : Nat} (hi : i < 1024) (ht : IsFrame t) (htd : t ≠ s.cr3)
    (htt : t ≠ t₀) (hpde : present (pdeAt s.mem s.cr3 i) = true)
    (hframe : frameOf (pdeAt s.mem s.cr3 i) = t) :
    ∃ m, clearTable (selfMap i) s = some { s with mem := m } ∧ AgreeOff [t] s.mem m ∧
      ∀ k < 1024, load32 m (t + 4 * k) = 0 := by
  obtain ⟨s', hs', m, rfl, hmem, hzero⟩ := foldlM_range
    (f := fun s k => Vm.write32 s (selfMap i + 4 * k) 0) (n := 1024) (s := s)
    (fun n s' => ∃ m, s' = { s with mem := m } ∧ AgreeOff [t] s.mem m ∧
      ∀ k < n, load32 m (t + 4 * k) = 0)
    ⟨s.mem, rfl, .refl _ _, by omega⟩ (by
      intro n s' hn ⟨m, hs', hmem, hzero⟩
      have haligned : ∀ g ∈ [t], g % 4096 = 0 := by simpa using ht.1
      have hcore : Core t₀ { s with mem := m, free := s.free } :=
        h.agree hmem haligned (by simpa using htd.symm) (by simpa using htt.symm)
      have hentry : pdeAt m s.cr3 i = pdeAt s.mem s.cr3 i :=
        hmem.word haligned h.dir.1 (by simpa using htd.symm) (by omega)
      have hwrite := hcore.writeWindow hi (show 4 * n < 4096 by omega) (by dsimp only; rwa [hentry]) 0
      dsimp only at hwrite
      rw [hentry, hframe] at hwrite
      subst hs'
      refine ⟨_, hwrite, _, rfl, hmem.trans (.store32 (by simp) (by omega)), ?_⟩
      intro k hk
      by_cases hkn : k = n
      · rw [hkn]
        exact load32_store32_same _ _ (by decide)
      · rw [load32_store32_ne (by omega)]
        exact hzero k (by omega))
  exact ⟨m, hs', hmem, hzero⟩

end Core

/-- The entry that `paging_map_page` writes for a user page. -/
theorem userEntry (f : Nat) : f ||| (0x07 &&& 0x07) ||| 0x01 = f ||| 0x07 := by
  rw [Nat.or_assoc]
  rfl

theorem userEntry_lt {f : Nat} (hf : IsFrame f) : f ||| 0x07 < 2 ^ 32 :=
  or_lt hf.1 hf.lt (by decide)

section MapPage

variable {t₀ : Nat} {s : Vm} {i j o f : Nat}

/-- A page whose table exists. -/
theorem Core.mapPage_present (h : Core t₀ s) (hi : i < 1023) (hj : j < 1024) (ho : o < 4096)
    (hf : IsFrame f) (hpde : present (pdeAt s.mem s.cr3 i) = true) :
    pagingMapPage (i * 2 ^ 22 + j * 2 ^ 12 + o) f 0x07 s =
      some { s with mem := store32 s.mem (frameOf (pdeAt s.mem s.cr3 i) + 4 * j) (f ||| 0x07) } := by
  obtain ⟨hpd, hpt, -⟩ := @vaddr_split i j o hj ho
  have hread := h.readLow h.dir (show 4 * i < 4096 by omega)
  have hwrite := h.writeWindow (by omega) (show 4 * j < 4096 by omega) hpde (f ||| 0x07)
  have hpresent : present (load32 s.mem (s.cr3 + 4 * i)) = true := hpde
  unfold pagingMapPage
  simp only [hpd, hpt, hread, Option.bind_eq_bind, Option.bind_some, hf.self, userEntry, hpresent,
    if_true]
  exact hwrite

/-- A page without a table, when there is no frame for one. -/
theorem Core.mapPage_stuck (h : Core t₀ s) (hi : i < 1023) (hj : j < 1024) (ho : o < 4096)
    (hpde : present (pdeAt s.mem s.cr3 i) = false) (hfree : s.free = []) :
    pagingMapPage (i * 2 ^ 22 + j * 2 ^ 12 + o) f 0x07 s = none := by
  obtain ⟨hpd, hpt, -⟩ := @vaddr_split i j o hj ho
  have hread := h.readLow h.dir (show 4 * i < 4096 by omega)
  have habsent : present (load32 s.mem (s.cr3 + 4 * i)) = false := hpde
  simp only [pagingMapPage, hpd, hread, Option.bind_eq_bind, Option.bind_some, habsent,
    Bool.false_eq_true, if_false, allocTable, pfaAlloc, hfree, Option.bind_none]

/-- A directory that gets a table in an empty frame: its entry is written twice, and one word of the
table. -/
theorem newTable_words {m m₂ : Nat → UInt8} {d t x y z : Nat} (hd : d % 4096 = 0)
    (ht : t % 4096 = 0) (hne : d ≠ t) (hi : i < 1024) (hj : j < 1024)
    (hagree : AgreeOff [t] (store32 m (d + 4 * i) x) m₂)
    (hzero : ∀ k < 1024, load32 m₂ (t + 4 * k) = 0) (hy : y < 2 ^ 32) (hz : z < 2 ^ 32) :
    AgreeOff [d, t] m (store32 (store32 m₂ (d + 4 * i) y) (t + 4 * j) z) ∧
      pdeAt (store32 (store32 m₂ (d + 4 * i) y) (t + 4 * j) z) d i = y ∧
      (∀ k < 1024, k ≠ i →
        pdeAt (store32 (store32 m₂ (d + 4 * i) y) (t + 4 * j) z) d k = pdeAt m d k) ∧
      ∀ k < 1024, load32 (store32 (store32 m₂ (d + 4 * i) y) (t + 4 * j) z) (t + 4 * k) =
        if k = j then z else 0 := by
  have htable : ∀ k < 1024, pdeAt (store32 (store32 m₂ (d + 4 * i) y) (t + 4 * j) z) d k =
      pdeAt (store32 m₂ (d + 4 * i) y) d k := fun k hk => load32_store32_ne (by omega)
  refine ⟨?_, ?_, ?_, ?_⟩
  · exact AgreeOff.trans (.store32 (by simp) (by omega)) (AgreeOff.trans (hagree.mono (by simp))
      (AgreeOff.trans (.store32 (by simp) (by omega)) (.store32 (by simp) (by omega))))
  · rw [htable i hi]
    exact load32_store32_same _ _ hy
  · intro k hk hki
    calc pdeAt (store32 (store32 m₂ (d + 4 * i) y) (t + 4 * j) z) d k =
          pdeAt (store32 m₂ (d + 4 * i) y) d k := htable k hk
      _ = pdeAt m₂ d k := load32_store32_ne (by omega)
      _ = pdeAt (store32 m (d + 4 * i) x) d k :=
          hagree.word (by simpa using ht) hd (by simpa using hne) (by omega)
      _ = pdeAt m d k := load32_store32_ne (by omega)
  · intro k hk
    split
    · next hkj =>
        rw [hkj]
        exact load32_store32_same _ _ hz
    · next hkj =>
        calc load32 (store32 (store32 m₂ (d + 4 * i) y) (t + 4 * j) z) (t + 4 * k) =
              load32 (store32 m₂ (d + 4 * i) y) (t + 4 * k) := load32_store32_ne (by omega)
          _ = load32 m₂ (t + 4 * k) := load32_store32_ne (by omega)
          _ = 0 := hzero k hk

/-- A page without a table, which gets one in the frame `t`. -/
theorem Core.mapPage_absent {t : Nat} {fs : List Nat} (h : Core t₀ s) (hi₀ : 1 ≤ i) (hi : i < 1023)
    (hj : j < 1024) (ho : o < 4096) (hf : IsFrame f) (ht : IsFrame t) (hne : t₀ ≠ s.cr3)
    (htd : t ≠ s.cr3) (htt : t ≠ t₀) (hpde : present (pdeAt s.mem s.cr3 i) = false)
    (hfree : s.free = t :: fs) :
    ∃ m, pagingMapPage (i * 2 ^ 22 + j * 2 ^ 12 + o) f 0x07 s =
        some { s with mem := m, free := fs } ∧
      AgreeOff [s.cr3, t] s.mem m ∧ pdeAt m s.cr3 i = t ||| 0x07 ∧
      (∀ k < 1024, k ≠ i → pdeAt m s.cr3 k = pdeAt s.mem s.cr3 k) ∧
      ∀ k < 1024, load32 m (t + 4 * k) = if k = j then f ||| 0x07 else 0 := by
  obtain ⟨hpd, hpt, -⟩ := @vaddr_split i j o hj ho
  have hread := h.readLow h.dir (show 4 * i < 4096 by omega)
  have habsent : present (load32 s.mem (s.cr3 + 4 * i)) = false := hpde
  have hdir := h.dir.1
  have haligned : ∀ g ∈ [t], g % 4096 = 0 := by simpa using ht.1
  -- the new entry makes the table visible in the window, where it is cleared
  have hcore : Core t₀ { s with free := fs } := h.congr rfl rfl fun _ _ => rfl
  let m₁ := store32 s.mem (s.cr3 + 4 * i) (t ||| 0x01)
  have hwrite₁ : Vm.write32 { s with free := fs } (s.cr3 + 4 * i) (t ||| 0x01) =
      some { s with mem := m₁, free := fs } := hcore.writeLow h.dir (by omega) _
  have hcore₁ : Core t₀ { s with mem := m₁, free := fs } := h.setPde hne hi₀ hi _ fs
  have hentry₁ : pdeAt m₁ s.cr3 i = t ||| 0x01 :=
    load32_store32_same _ _ (or_lt ht.1 ht.lt (by decide))
  have hpresent₁ : present (pdeAt m₁ s.cr3 i) = true := by
    rw [hentry₁, present_or ht.1 (by decide)]
    rfl
  obtain ⟨m₂, hclear, hmem₂, hzero⟩ := hcore₁.clearWindow (show i < 1024 by omega) ht htd htt
    hpresent₁ (by rw [hentry₁, frameOf_or ht.1 ht.lt (by decide)])
  have hcore₂ : Core t₀ { s with mem := m₂, free := fs } :=
    hcore₁.agree hmem₂ haligned (by simpa using htd.symm) (by simpa using htt.symm)
  let m₃ := store32 m₂ (s.cr3 + 4 * i) (t ||| 0x07)
  have hwrite₃ : Vm.write32 { s with mem := m₂, free := fs } (s.cr3 + 4 * i) (t ||| 0x07) =
      some { s with mem := m₃, free := fs } := hcore₂.writeLow h.dir (by omega) _
  have hcore₃ : Core t₀ { s with mem := m₃, free := fs } := hcore₂.setPde hne hi₀ hi _ fs
  have hentry₃ : pdeAt m₃ s.cr3 i = t ||| 0x07 := load32_store32_same _ _ (userEntry_lt ht)
  let m₄ := store32 m₃ (t + 4 * j) (f ||| 0x07)
  have hwrite₄ : Vm.write32 { s with mem := m₃, free := fs } (selfMap i + 4 * j) (f ||| 0x07) =
      some { s with mem := m₄, free := fs } := by
    have hframe : frameOf (pdeAt m₃ s.cr3 i) = t := by
      rw [hentry₃, frameOf_or ht.1 ht.lt (by decide)]
    have hwrite := hcore₃.writeWindow (show i < 1024 by omega) (show 4 * j < 4096 by omega)
      (by dsimp only; rw [hentry₃, present_or ht.1 (by decide)]; rfl) (f ||| 0x07)
    dsimp only at hwrite
    rwa [hframe] at hwrite
  refine ⟨m₄, ?_, newTable_words hdir ht.1 htd.symm (by omega) hj hmem₂ hzero (userEntry_lt ht)
    (userEntry_lt hf)⟩
  simp only [pagingMapPage, hpd, hpt, hread, Option.bind_eq_bind, Option.bind_some, habsent,
    Bool.false_eq_true, if_false, allocTable, pfaAlloc, hfree, ht.self, hf.self, userEntry,
    hwrite₁, hclear, hwrite₃]
  exact hwrite₄

end MapPage

end SRos.Paging
