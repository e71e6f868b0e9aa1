import SRos.Lib.Run
import SRos.Paging.Boot

/-!
# `paging_map_page` on any directory

A directory whose last entry maps itself and whose own frame is mapped to itself is enough for
`paging_map_page`: the call changes the translation of one page and of no other.
-/

namespace SRos.Paging

open Bytes Loop

/-- The two-level walk of a page: its frame, and the flags of its two entries. -/
def walk (s : Vm) (v : Nat) : Option (Nat × Nat × Nat) :=
  let pde := load32 s.mem (frameOf s.cr3 + 4 * (v >>> 22))
  if present pde then
    let pte := load32 s.mem (frameOf pde + 4 * (v >>> 12 &&& 0x3FF))
    if present pte then some (frameOf pte, flagsOf pte, flagsOf pde) else none
  else none

/-- A directory as `paging_map_page` uses it. -/
structure SelfMapped (s : Vm) : Prop where
  dir : frameOf s.cr3 = s.cr3
  self : present (pdeAt s.mem s.cr3 1023) = true ∧ frameOf (pdeAt s.mem s.cr3 1023) = s.cr3
  distinct : ∀ i < 1024, ∀ k < 1024, present (pdeAt s.mem s.cr3 i) = true →
    present (pdeAt s.mem s.cr3 k) = true →
    frameOf (pdeAt s.mem s.cr3 i) = frameOf (pdeAt s.mem s.cr3 k) → i = k
  ident : Ident s s.cr3

/-- The frame is neither the directory nor one of its tables. -/
def Unused (s : Vm) (t : Nat) : Prop :=
  ∀ i < 1024, present (pdeAt s.mem s.cr3 i) = true → frameOf (pdeAt s.mem s.cr3 i) ≠ t

theorem frameOf_frame (e : Nat) : frameOf e % 4096 = 0 ∧ frameOf e < 2 ^ 32 := by
  have hmod : frameOf e % 2 ^ 12 = (e % 2 ^ 12) &&& (0xFFFFF000 % 2 ^ 12) := Nat.and_mod_two_pow
  have hle : frameOf e ≤ 0xFFFFF000 := Nat.and_le_right
  have hzero : (0xFFFFF000 % 2 ^ 12 : Nat) = 0 := by decide
  rw [hzero, Nat.and_zero] at hmod
  omega

/-- The flags that `paging_map_page` writes. -/
def mapFlags (flags : Nat) : Nat := flags &&& 0x07 ||| 0x01

theorem mapFlags_lt (flags : Nat) : mapFlags flags < 2 ^ 3 :=
  Nat.or_lt_two_pow (Nat.lt_of_le_of_lt Nat.and_le_right (by decide)) (by decide)

theorem present_mapFlags (flags : Nat) : present (mapFlags flags) = true := by
  unfold present mapFlags
  rw [Nat.and_or_distrib_right, bne_iff_ne]
  intro hzero
  have hone := (Nat.or_eq_zero_iff.mp hzero).2
  exact absurd hone (by decide)

/-- The entries that `paging_map_page` writes. -/
theorem mapEntry (f flags : Nat) : frameOf f ||| (flags &&& 0x07) ||| 0x01 =
    frameOf f ||| mapFlags flags := Nat.or_assoc _ _ _

structure IsEntry (e f flags : Nat) : Prop where
  lt : e < 2 ^ 32
  present : present e = true
  frame : frameOf e = f
  flags : flagsOf e = flags

theorem isEntry_or {f flags : Nat} (hf : f % 4096 = 0) (hlt : f < 2 ^ 32) (hflags : flags < 4096)
    (hpresent : present flags = true) : IsEntry (f ||| flags) f flags :=
  ⟨or_lt hf hlt hflags, (present_or hf hflags).trans hpresent, frameOf_or hf hlt hflags,
    flagsOf_or hf hflags⟩

theorem isEntry_map (f flags : Nat) :
    IsEntry (frameOf f ||| mapFlags flags) (frameOf f) (mapFlags flags) :=
  isEntry_or (frameOf_frame f).1 (frameOf_frame f).2
    (Nat.lt_trans (mapFlags_lt flags) (by decide)) (present_mapFlags flags)

section Window

variable {s : Vm} {m : Nat → UInt8} {fs : List Nat} {t : Nat}

/-- The window of a directory that maps itself shows the tables behind its entries. -/
theorem translate_window (hdir : frameOf s.cr3 = s.cr3)
    (hself : present (pdeAt s.mem s.cr3 1023) = true ∧ frameOf (pdeAt s.mem s.cr3 1023) = s.cr3)
    {i o : Nat} (hi : i < 1024) (ho : o < 4096) (hpde : present (pdeAt s.mem s.cr3 i) = true) :
    s.translate (selfMap i + o) = some (frameOf (pdeAt s.mem s.cr3 i) + o) := by
  have haddr : selfMap i + o = 1023 * 2 ^ 22 + i * 2 ^ 12 + o := by
    unfold selfMap
    omega
  have hpte : pteAt s.mem s.cr3 1023 i = pdeAt s.mem s.cr3 i := by
    rw [pteAt, hself.2]
    rfl
  have hmapped : mapped s.mem s.cr3 1023 i = true := by
    rw [mapped_iff, hpte]
    exact ⟨hself.1, hpde⟩
  rw [haddr, translate_split hdir hi ho, hmapped, hpte]
  rfl

/-- The present entries of the directory are kept, and otherwise only the frame `t` changes. -/
structure Kept (s : Vm) (t : Nat) (m : Nat → UInt8) : Prop where
  agree : AgreeOff [s.cr3, t] s.mem m
  entries : ∀ k < 1024, present (pdeAt s.mem s.cr3 k) = true →
    pdeAt m s.cr3 k = pdeAt s.mem s.cr3 k

/-- What is mapped stays mapped to the same frame. -/
theorem Kept.translate (h : Kept s t m) (hdir : frameOf s.cr3 = s.cr3) (ht : t % 4096 = 0)
    (hunused : Unused s t) {v a : Nat} (hv : v < 2 ^ 32) (hva : s.translate v = some a) :
    Vm.translate { s with mem := m, free := fs } v = some a := by
  have hcr3 := (frameOf_frame s.cr3).1
  rw [hdir] at hcr3
  rw [vaddr_eq v] at hva ⊢
  have hi : v / 2 ^ 22 < 1024 := by omega
  have hj : v / 2 ^ 12 % 1024 < 1024 := by omega
  have ho : v % 4096 < 4096 := by omega
  generalize v / 2 ^ 22 = i at hi hva ⊢
  generalize v / 2 ^ 12 % 1024 = j at hj hva ⊢
  generalize v % 4096 = o at ho hva ⊢
  rw [translate_split hdir hj ho] at hva
  rw [translate_split (by exact hdir) hj ho]
  by_cases hmapped : mapped s.mem s.cr3 i j = true
  · obtain ⟨hpde, hpte⟩ := mapped_iff.mp hmapped
    have hpde' := h.entries i hi hpde
    have hpte' : pteAt m s.cr3 i j = pteAt s.mem s.cr3 i j := by
      unfold pteAt at hpte ⊢
      rw [hpde']
      by_cases hframe : frameOf (pdeAt s.mem s.cr3 i) = s.cr3
      · -- the page is in the window, where an entry of the directory is its page
        rw [hframe] at hpte ⊢
        exact h.entries j hj hpte
      · have hne := hunused i hi hpde
        exact h.agree.word (by simp [hcr3, ht]) (frameOf_frame _).1
          (by simp [hframe, hne]) (by omega)
    have hmapped' : mapped m s.cr3 i j = true := by
      rw [mapped_iff, hpde', hpte']
      exact ⟨hpde, hpte⟩
    rw [if_pos hmapped] at hva
    rw [if_pos hmapped', hpte']
    exact hva
  · rw [if_neg hmapped] at hva
    cases hva

theorem SelfMapped.aligned (h : SelfMapped s) : s.cr3 % 4096 = 0 ∧ s.cr3 < 2 ^ 32 := by
  have hframe := frameOf_frame s.cr3
  rwa [h.dir] at hframe

theorem SelfMapped.dir_ne (h : SelfMapped s) (hunused : Unused s t) : s.cr3 ≠ t := by
  have hne := hunused 1023 (by omega) h.self.1
  rwa [h.self.2] at hne

/-- The directory can still be read and written at its own address. -/
theorem Kept.ident (h : Kept s t m) (hs : SelfMapped s) (ht : t % 4096 = 0)
    (hunused : Unused s t) : Ident { s with mem := m, free := fs } s.cr3 := by
  intro o ho
  have haligned := hs.aligned
  exact h.translate hs.dir ht hunused (by omega) (hs.ident o ho)

theorem Kept.self (h : Kept s t m) (hs : SelfMapped s) :
    present (pdeAt m s.cr3 1023) = true ∧ frameOf (pdeAt m s.cr3 1023) = s.cr3 := by
  rw [h.entries 1023 (by omega) hs.self.1]
  exact hs.self

theorem Ident.write32 {f : Nat} (h : Ident s f) {o : Nat} (ho : o < 4096) (x : Nat) :
    s.write32 (f + o) x = some { s with mem := store32 s.mem (f + o) x } := by
  rw [Vm.write32, h o ho, Option.map_some]

theorem Ident.read32 {f : Nat} (h : Ident s f) {o : Nat} (ho : o < 4096) :
    s.read32 (f + o) = some (load32 s.mem (f + o)) := by
  rw [Vm.read32, h o ho, Option.map_some]

/-- A missing entry is filled in. -/
theorem Kept.setPde (h : Kept s t m) {i : Nat} (hi : i < 1024)
    (habsent : present (pdeAt s.mem s.cr3 i) = false) (x : Nat) :
    Kept s t (store32 m (s.cr3 + 4 * i) x) where
  agree := h.agree.trans (.store32 (by simp) (by omega))
  entries := by
    intro k hk hpresent
    have hne : k ≠ i := by
      rintro rfl
      rw [habsent] at hpresent
      cases hpresent
    rw [← h.entries k hk hpresent]
    exact load32_store32_ne (by omega)

/-- The frame `t` is written. -/
theorem Kept.frame {m' : Nat → UInt8} (h : Kept s t m) (hdir : s.cr3 % 4096 = 0)
    (ht : t % 4096 = 0) (hne : s.cr3 ≠ t) (hm : AgreeOff [t] m m') : Kept s t m' where
  agree := h.agree.trans (hm.mono (by simp))
  entries := by
    intro k hk hpresent
    rw [← h.entries k hk hpresent]
    exact hm.word (by simpa using ht) hdir (by simpa using hne) (by omega)

/-- The loop that clears a new table through the window. -/
theorem Kept.clear (h : Kept s t m) (hs : SelfMapped s) (ht : t % 4096 = 0) (hunused : Unused s t)
    {i : Nat} (hi : i < 1024) (hentry : present (pdeAt m s.cr3 i) = true)
    (hframe : frameOf (pdeAt m s.cr3 i) = t) :
    ∃ m', clearTable (selfMap i) { s with mem := m, free := fs } =
        some { s with mem := m', free := fs } ∧
      AgreeOff [t] m m' ∧ ∀ k < 1024, load32 m' (t + 4 * k) = 0 := by
  have hdir := hs.aligned.1
  have hne := hs.dir_ne hunused
  obtain ⟨s', hs', m', rfl, hmem, hzero⟩ := foldlM_range
    (f := fun s k => Vm.write32 s (selfMap i + 4 * k) 0) (n := 1024)
    (s := { s with mem := m, free := fs })
    (fun n s' => ∃ m', s' = { s with mem := m', free := fs } ∧ AgreeOff [t] m m' ∧
      ∀ k < n, load32 m' (t + 4 * k) = 0)
    ⟨m, rfl, .refl _ _, by omega⟩ (by
      rintro n s' hn ⟨m', rfl, hmem, hzero⟩
      have hkept := h.frame hdir ht hne hmem
      have hsame : pdeAt m' s.cr3 i = pdeAt m s.cr3 i :=
        hmem.word (by simpa using ht) hdir (by simpa using hne) (by omega)
      have htranslate := translate_window (s := { s with mem := m', free := fs }) hs.dir
        (hkept.self hs) hi (show 4 * n < 4096 by omega) (by dsimp only; rwa [hsame])
      dsimp only at htranslate
      rw [hsame, hframe] at htranslate
      refine ⟨{ s with mem := store32 m' (t + 4 * n) 0, free := fs }, ?_, _, rfl,
        hmem.trans (.store32 (by simp) (by omega)), ?_⟩
      · rw [Vm.write32, htranslate, Option.map_some]
      · intro k hk
        by_cases hkn : k = n
        · rw [hkn]
          exact load32_store32_same _ _ (by decide)
        · rw [load32_store32_ne (by omega)]
          exact hzero k (by omega))
  exact ⟨m', hs', hmem, hzero⟩

end Window

section Install

variable {s : Vm} {i j o t p flags : Nat} {fs : List Nat}

/-- The page has a table: one word of it is written. -/
theorem SelfMapped.mapPage_present (h : SelfMapped s) (hi : i < 1023) (hj : j < 1024)
    (ho : o < 4096) (hpde : present (pdeAt s.mem s.cr3 i) = true) :
    pagingMapPage (i * 2 ^ 22 + j * 2 ^ 12 + o) p flags s = some { s with
      mem := store32 s.mem (frameOf (pdeAt s.mem s.cr3 i) + 4 * j)
        (frameOf p ||| mapFlags flags) } := by
  obtain ⟨hpd, hpt, -⟩ := @vaddr_split i j o hj ho
  have hread := h.ident.read32 (show 4 * i < 4096 by omega)
  have hwindow := translate_window h.dir h.self (show i < 1024 by omega)
    (show 4 * j < 4096 by omega) hpde
  have hpresent : present (load32 s.mem (s.cr3 + 4 * i)) = true := hpde
  unfold pagingMapPage
  simp only [hpd, hpt, hread, Option.bind_eq_bind, Option.bind_some, hpresent, if_true, mapEntry]
  rw [Vm.write32, hwindow, Option.map_some]

/-- The page has no table, and there is no frame for one. -/
theorem SelfMapped.mapPage_stuck (h : SelfMapped s) (hi : i < 1023) (hj : j < 1024)
    (ho : o < 4096) (hpde : present (pdeAt s.mem s.cr3 i) = false) (hfree : s.free = []) :
    pagingMapPage (i * 2 ^ 22 + j * 2 ^ 12 + o) p flags s = none := by
  obtain ⟨hpd, hpt, -⟩ := @vaddr_split i j o hj ho
  have hread := h.ident.read32 (show 4 * i < 4096 by omega)
  have habsent : present (load32 s.mem (s.cr3 + 4 * i)) = false := hpde
  simp only [pagingMapPage, hpd, hread, Option.bind_eq_bind, Option.bind_some, habsent,
    Bool.false_eq_true, if_false, allocTable, pfaAlloc, hfree, Option.bind_none]

/-- The page gets a table in the frame `t`, whatever the frame held before. -/
theorem SelfMapped.mapPage_absent (h : SelfMapped s) (hi : i < 1023) (hj : j < 1024)
    (ho : o < 4096) (hpde : present (pdeAt s.mem s.cr3 i) = false) (hfree : s.free = t :: fs)
    (hunused : Unused s (frameOf t)) :
    ∃ m, pagingMapPage (i * 2 ^ 22 + j * 2 ^ 12 + o) p flags s =
        some { s with mem := m, free := fs } ∧
      AgreeOff [s.cr3, frameOf t] s.mem m ∧
      pdeAt m s.cr3 i = frameOf t ||| mapFlags flags ∧
      (∀ k < 1024, k ≠ i → pdeAt m s.cr3 k = pdeAt s.mem s.cr3 k) ∧
      ∀ k < 1024, load32 m (frameOf t + 4 * k) =
        if k = j then frameOf p ||| mapFlags flags else 0 := by
  obtain ⟨hpd, hpt, -⟩ := @vaddr_split i j o hj ho
  have hdir := h.aligned.1
  have ht := (frameOf_frame t).1
  have hne := h.dir_ne hunused
  have htable := isEntry_map t flags
  have hfirst : IsEntry (frameOf t ||| 0x01) (frameOf t) 0x01 :=
    isEntry_or ht (frameOf_frame t).2 (by decide) rfl
  have hread := h.ident.read32 (show 4 * i < 4096 by omega)
  have habsent : present (load32 s.mem (s.cr3 + 4 * i)) = false := hpde
  have hkept₀ : Kept s (frameOf t) s.mem := ⟨.refl _ _, fun _ _ _ => rfl⟩
  -- the new entry makes the table visible in the window, where it is cleared
  let m₁ := store32 s.mem (s.cr3 + 4 * i) (frameOf t ||| 0x01)
  have hwrite₁ : Vm.write32 { s with free := fs } (s.cr3 + 4 * i) (frameOf t ||| 0x01) =
      some { s with mem := m₁, free := fs } :=
    (hkept₀.ident h ht hunused).write32 (show 4 * i < 4096 by omega) _
  have hkept₁ : Kept s (frameOf t) m₁ := hkept₀.setPde (by omega) hpde _
  have hentry₁ : pdeAt m₁ s.cr3 i = frameOf t ||| 0x01 := load32_store32_same _ _ hfirst.lt
  obtain ⟨m₂, hclear, hmem₂, hzero⟩ := @Kept.clear s m₁ fs (frameOf t) hkept₁ h ht hunused i
    (by omega) (by rw [hentry₁]; exact hfirst.present) (by rw [hentry₁]; exact hfirst.frame)
  have hkept₂ := hkept₁.frame hdir ht hne hmem₂
  let m₃ := store32 m₂ (s.cr3 + 4 * i) (frameOf t ||| mapFlags flags)
  have hwrite₃ : Vm.write32 { s with mem := m₂, free := fs } (s.cr3 + 4 * i)
      (frameOf t ||| mapFlags flags) = some { s with mem := m₃, free := fs } :=
    (hkept₂.ident h ht hunused).write32 (show 4 * i < 4096 by omega) _
  have hkept₃ : Kept s (frameOf t) m₃ := hkept₂.setPde (by omega) hpde _
  have hentry₃ : pdeAt m₃ s.cr3 i = frameOf t ||| mapFlags flags :=
    load32_store32_same _ _ htable.lt
  let m₄ := store32 m₃ (frameOf t + 4 * j) (frameOf p ||| mapFlags flags)
  have hwrite₄ : Vm.write32 { s with mem := m₃, free := fs } (selfMap i + 4 * j)
      (frameOf p ||| mapFlags flags) = some { s with mem := m₄, free := fs } := by
    have hwindow := translate_window (s := { s with mem := m₃, free := fs }) h.dir
      (hkept₃.self h) (show i < 1024 by omega) (show 4 * j < 4096 by omega)
      (by dsimp only; rw [hentry₃]; exact htable.present)
    dsimp only at hwindow
    rw [hentry₃, htable.frame] at hwindow
    rw [Vm.write32, hwindow, Option.map_some]
  refine ⟨m₄, ?_, newTable_words hdir ht hne (by omega) hj hmem₂ hzero htable.lt
    (isEntry_map p flags).lt⟩
  simp only [pagingMapPage, hpd, hpt, hread, Option.bind_eq_bind, Option.bind_some, habsent,
    Bool.false_eq_true, if_false, allocTable, pfaAlloc, hfree, mapEntry, hwrite₁, hclear, hwrite₃]
  exact hwrite₄

theorem walk_split (hdir : frameOf s.cr3 = s.cr3) (hj : j < 1024) (ho : o < 4096) :
    walk s (i * 2 ^ 22 + j * 2 ^ 12 + o) = if mapped s.mem s.cr3 i j then
      some (frameOf (pteAt s.mem s.cr3 i j), flagsOf (pteAt s.mem s.cr3 i j),
        flagsOf (pdeAt s.mem s.cr3 i)) else none := by
  obtain ⟨hpd, hpt, -⟩ := @vaddr_split i j o hj ho
  unfold walk
  rw [hpd, hpt, hdir]
  change (if present (pdeAt s.mem s.cr3 i) then if present (pteAt s.mem s.cr3 i j) then
    some (frameOf (pteAt s.mem s.cr3 i j), flagsOf (pteAt s.mem s.cr3 i j),
      flagsOf (pdeAt s.mem s.cr3 i)) else none else none) = _
  unfold mapped
  cases present (pdeAt s.mem s.cr3 i) <;> cases present (pteAt s.mem s.cr3 i j) <;> rfl

/-- What a call of `paging_map_page` for page `j` of entry `i` leaves, where `top` is the frame
on top of the allocator. -/
structure Installed (s : Vm) (top i j p flags : Nat) (s' : Vm) : Prop where
  cr3 : s'.cr3 = s.cr3
  free : s'.free = if present (pdeAt s.mem s.cr3 i) then s.free else s.free.tail
  pde : pdeAt s'.mem s.cr3 i = if present (pdeAt s.mem s.cr3 i) then pdeAt s.mem s.cr3 i
    else frameOf top ||| mapFlags flags
  pte : pteAt s'.mem s.cr3 i j = frameOf p ||| mapFlags flags
  pde_other : ∀ k < 1024, k ≠ i → pdeAt s'.mem s.cr3 k = pdeAt s.mem s.cr3 k
  pte_other : ∀ k < 1023, ∀ l < 1024, ¬(k = i ∧ l = j) → present (pdeAt s.mem s.cr3 k) = true →
    pteAt s'.mem s.cr3 k l = pteAt s.mem s.cr3 k l
  pte_new : present (pdeAt s.mem s.cr3 i) = false → ∀ l < 1024, l ≠ j →
    pteAt s'.mem s.cr3 i l = 0

/-- The page has a table. -/
theorem SelfMapped.installed_present (h : SelfMapped s) (hi : i < 1023) (hj : j < 1024)
    (hpde : present (pdeAt s.mem s.cr3 i) = true) (top : Nat) :
    Installed s top i j p flags { s with
      mem := store32 s.mem (frameOf (pdeAt s.mem s.cr3 i) + 4 * j)
        (frameOf p ||| mapFlags flags) } := by
  have hdir := h.aligned.1
  have htable := (frameOf_frame (pdeAt s.mem s.cr3 i)).1
  have hne : frameOf (pdeAt s.mem s.cr3 i) ≠ s.cr3 := by
    intro heq
    have hself := h.distinct i (by omega) 1023 (by omega) hpde h.self.1 (heq.trans h.self.2.symm)
    omega
  have hpdes : ∀ k < 1024, pdeAt (store32 s.mem (frameOf (pdeAt s.mem s.cr3 i) + 4 * j)
      (frameOf p ||| mapFlags flags)) s.cr3 k = pdeAt s.mem s.cr3 k := by
    intro k hk
    exact load32_store32_ne (by omega)
  refine ⟨rfl, by rw [if_pos hpde], ?_, ?_, fun k hk _ => hpdes k hk, ?_, ?_⟩
  · rw [if_pos hpde]
    exact hpdes i (by omega)
  · unfold pteAt
    rw [hpdes i (by omega)]
    exact load32_store32_same _ _ (isEntry_map p flags).lt
  · intro k hk l hl hkl hpresent
    unfold pteAt
    rw [hpdes k (by omega)]
    apply load32_store32_ne
    by_cases hki : k = i
    · subst hki
      have hlj : l ≠ j := fun hlj => hkl ⟨rfl, hlj⟩
      omega
    · have hframes : frameOf (pdeAt s.mem s.cr3 k) ≠ frameOf (pdeAt s.mem s.cr3 i) :=
        fun heq => hki (h.distinct k (by omega) i (by omega) hpresent hpde heq)
      have htable' := (frameOf_frame (pdeAt s.mem s.cr3 k)).1
      omega
  · intro habsent
    rw [hpde] at habsent
    cases habsent

/-- The page gets a table. -/
theorem SelfMapped.installed_absent (h : SelfMapped s) (hi : i < 1023) (hj : j < 1024)
    (ho : o < 4096) (hpde : present (pdeAt s.mem s.cr3 i) = false) (hfree : s.free = t :: fs)
    (hunused : Unused s (frameOf t)) :
    ∃ s', pagingMapPage (i * 2 ^ 22 + j * 2 ^ 12 + o) p flags s = some s' ∧
      Installed s t i j p flags s' := by
  obtain ⟨m, hmap, hagree, hpdei, hpdes, hptes⟩ :=
    @SelfMapped.mapPage_absent s i j o t p flags fs h hi hj ho hpde hfree hunused
  have htable := isEntry_map t flags
  have hdir := h.aligned.1
  have ht := (frameOf_frame t).1
  refine ⟨_, hmap, rfl, by rw [hpde, hfree]; rfl, ?_, ?_, hpdes, ?_, ?_⟩
  · rw [hpde]
    exact hpdei
  · unfold pteAt
    dsimp only
    rw [hpdei, htable.frame, hptes j hj, if_pos rfl]
  · intro k hk l hl hkl hpresent
    have hki : k ≠ i := by
      rintro rfl
      rw [hpde] at hpresent
      cases hpresent
    have hne : frameOf (pdeAt s.mem s.cr3 k) ≠ s.cr3 := by
      intro heq
      have hself := h.distinct k (by omega) 1023 (by omega) hpresent h.self.1
        (heq.trans h.self.2.symm)
      omega
    have hne' := hunused k (by omega) hpresent
    unfold pteAt
    dsimp only
    rw [hpdes k (by omega) hki]
    exact hagree.word (by simp [hdir, ht]) (frameOf_frame _).1 (by simp [hne, hne']) (by omega)
  · intro _ l hl hlj
    unfold pteAt
    dsimp only
    rw [hpdei, htable.frame, hptes l hl, if_neg hlj]

/-- Every call that returns installs one page. -/
theorem SelfMapped.installed (h : SelfMapped s) (hi : i < 1023) (hj : j < 1024) (ho : o < 4096)
    (htop : ∀ f ∈ s.free.head?, Unused s (frameOf f))
    (hroom : s.free ≠ [] ∨ present (pdeAt s.mem s.cr3 i) = true) :
    ∃ s', pagingMapPage (i * 2 ^ 22 + j * 2 ^ 12 + o) p flags s = some s' ∧
      Installed s (s.free.headD 0) i j p flags s' := by
  cases hpde : present (pdeAt s.mem s.cr3 i) with
  | true => exact ⟨_, h.mapPage_present hi hj ho hpde, h.installed_present hi hj hpde _⟩
  | false =>
      rw [hpde] at hroom
      cases hfree : s.free with
      | nil =>
          rw [hfree] at hroom
          simp at hroom
      | cons t fs =>
          rw [hfree] at htop
          exact h.installed_absent hi hj ho hpde hfree (htop t rfl)

theorem Installed.walk_page {s' : Vm} {top : Nat} (h : Installed s top i j p flags s')
    (hdir : frameOf s.cr3 = s.cr3) (hj : j < 1024) (ho : o < 4096) :
    walk s' (i * 2 ^ 22 + j * 2 ^ 12 + o) = some (frameOf p, mapFlags flags,
      if present (pdeAt s.mem s.cr3 i) then flagsOf (pdeAt s.mem s.cr3 i) else mapFlags flags) := by
  have hpage := isEntry_map p flags
  have htable := isEntry_map top flags
  rw [walk_split (by rwa [h.cr3]) hj ho, h.cr3, mapped, h.pte, hpage.present, hpage.frame,
    hpage.flags, h.pde]
  cases hpde : present (pdeAt s.mem s.cr3 i) with
  | true => simp [hpde]
  | false => simp [htable.present, htable.flags]

theorem Installed.walk_other {s' : Vm} {top : Nat} (h : Installed s top i j p flags s')
    (hdir : frameOf s.cr3 = s.cr3) {k l : Nat} (hk : k < 1023) (hl : l < 1024) (ho : o < 4096)
    (hkl : ¬(k = i ∧ l = j)) :
    walk s' (k * 2 ^ 22 + l * 2 ^ 12 + o) = walk s (k * 2 ^ 22 + l * 2 ^ 12 + o) := by
  rw [walk_split (by rwa [h.cr3]) hl ho, walk_split hdir hl ho, h.cr3]
  cases hpde : present (pdeAt s.mem s.cr3 k) with
  | true =>
      have hpde' : pdeAt s'.mem s.cr3 k = pdeAt s.mem s.cr3 k := by
        by_cases hki : k = i
        · subst hki
          rw [h.pde, if_pos hpde]
        · exact h.pde_other k (by omega) hki
      rw [mapped, mapped, hpde', h.pte_other k hk l hl hkl hpde]
  | false =>
      have hunmapped : mapped s.mem s.cr3 k l = false := by simp [mapped, hpde]
      have hunmapped' : mapped s'.mem s.cr3 k l = false := by
        by_cases hki : k = i
        · -- the other pages of a new table are empty
          subst hki
          have hlj : l ≠ j := fun hlj => hkl ⟨rfl, hlj⟩
          rw [mapped, h.pte_new hpde l hl hlj]
          simp [present]
        · rw [mapped, h.pde_other k (by omega) hki, hpde]
          rfl
      rw [hunmapped, hunmapped']
      rfl

end Install

/-- `paging_map_page` installs exactly one translation. -/
theorem map_page_exact {s : Vm} (h : SelfMapped s) {v : Nat} (hv : v < 0xFFC00000)
    (htop : ∀ f ∈ s.free.head?, Unused s (frameOf f))
    (hroom : s.free ≠ [] ∨ present (pdeAt s.mem s.cr3 (v >>> 22)) = true) (p flags : Nat) :
    ∃ s', pagingMapPage v p flags s = some s' ∧ s'.cr3 = s.cr3 ∧
      (∃ pdeFlags, walk s' v = some (p &&& 0xFFFFF000, flags &&& 0x07 ||| 0x01, pdeFlags)) ∧
      ∀ w < 0xFFC00000, w / 4096 ≠ v / 4096 → walk s' w = walk s w := by
  have hi : v / 2 ^ 22 < 1023 := by omega
  have hj : v / 2 ^ 12 % 1024 < 1024 := by omega
  have ho : v % 4096 < 4096 := by omega
  rw [Nat.shiftRight_eq_div_pow] at hroom
  obtain ⟨s', hs', hinstalled⟩ := @SelfMapped.installed s _ _ _ p flags h hi hj ho htop hroom
  have hpage := hinstalled.walk_page h.dir hj ho
  rw [← vaddr_eq] at hs' hpage
  refine ⟨s', hs', hinstalled.cr3, ⟨_, hpage⟩, ?_⟩
  intro w hw hwv
  rw [vaddr_eq w]
  exact hinstalled.walk_other h.dir (by omega) (by omega) (by omega) (by omega)

/-! ## The boot directory -/

section Boot

variable {m : Nat → UInt8} {fs : List Nat}

/-- The boot directory has its first entry and the self-map. -/
theorem Initial.pde (h : Initial m) {i : Nat} (hi : i < 1024)
    (hpresent : present (pdeAt m bootDir i) = true) :
    (i = 0 ∧ frameOf (pdeAt m bootDir i) = idTable) ∨
      (i = 1023 ∧ frameOf (pdeAt m bootDir i) = bootDir) := by
  by_cases hzero : i = 0
  · rw [hzero, h.first]
    exact .inl ⟨rfl, by decide⟩
  · by_cases hlast : i = 1023
    · rw [hlast, h.self]
      exact .inr ⟨rfl, by decide⟩
    · rw [h.rest i (by omega) (by omega)] at hpresent
      cases hpresent

theorem Initial.selfMapped (h : Initial m) :
    SelfMapped { mem := m, cr3 := bootDir, free := fs } where
  dir := by
    dsimp only
    decide
  self := by
    dsimp only
    rw [h.self]
    decide
  distinct := by
    intro i hi k hk hpi hpk heq
    have hne : idTable ≠ bootDir := by decide
    rcases h.pde hi hpi with ⟨hi', hf⟩ | ⟨hi', hf⟩ <;> rcases h.pde hk hpk with ⟨hk', hg⟩ | ⟨hk', hg⟩
    · omega
    · exact absurd (hf.symm.trans (heq.trans hg)) hne
    · exact absurd (hg.symm.trans (heq.symm.trans hf)) hne
    · omega
  ident := by
    intro o ho
    dsimp only
    exact translate_identity (by dsimp only; decide) ⟨by decide, by decide⟩ h.first h.identity
      (by unfold bootDir lowEnd; omega)

theorem Initial.unused (h : Initial m) {t : Nat} (hdir : t ≠ bootDir) (htable : t ≠ idTable) :
    Unused { mem := m, cr3 := bootDir, free := fs } t := by
  intro i hi hpresent heq
  rcases h.pde hi hpresent with ⟨-, hf⟩ | ⟨-, hf⟩
  · exact htable (heq.symm.trans hf)
  · exact hdir (heq.symm.trans hf)

end Boot

/-- The first buffer of the network card gets a table of its own. -/
theorem map_page_exact_boot : ∃ s, boot (fun _ => 0) = some s ∧
    ∃ s', pagingMapPage 0xF0040000 0x112000 0x03 s = some s' ∧ s'.cr3 = s.cr3 ∧
      (∃ pdeFlags, walk s' 0xF0040000 =
        some (0x112000 &&& 0xFFFFF000, 0x03 &&& 0x07 ||| 0x01, pdeFlags)) ∧
      ∀ w < 0xFFC00000, w / 4096 ≠ 0xF0040000 / 4096 → walk s' w = walk s w := by
  obtain ⟨m, hm, hboot⟩ := boot_eq fun _ => 0
  refine ⟨_, hboot, map_page_exact hm.selfMapped (by decide) ?_ (.inl (by simp [lateFrames])) _ _⟩
  intro f hf
  have htop : (lateFrames.reverse ++ [0x112000, 0x111000]).head? = some 0x3FF000 := by decide
  cases htop.symm.trans hf
  exact hm.unused (by decide) (by decide)

end SRos.Paging
