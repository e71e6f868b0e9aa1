import SRos.Elf.Spared

/-!
# What a failed call leaves behind

The loader loads a segment before it reads the next program header, and nothing is undone when a
later header cannot be read. The pages of the caller survive if and only if the file parts of the
segments loaded so far are on pages that were not mapped, and their zeros on bytes that were zero.
-/

namespace SRos.Elf

open Bytes Fs Paging

/-- The address is on a page that has been mapped to one of the frames free in `s₀`. -/
def FreshAt (s₀ s : Vm) (v : Nat) : Prop := ∃ f ∈ s₀.free, s.translate v = some (f + v % 4096)

/-- An address space that the loader has made of `s₀`. -/
structure Since (s₀ s : Vm) : Prop where
  start : Guarded s₀
  guarded : Guarded s
  free : ∀ f ∈ s.free, f ∈ s₀.free
  unused : ∀ g, g ∉ s₀.free → Unused s₀ g → Unused s g
  frames : ∀ v, AboveKernel v → s.translate v = s₀.translate v ∨ FreshAt s₀ s v

/-- The pages of the caller are where they were, with the same contents. -/
def PagesKept (s₀ s : Vm) : Prop := ∀ v a, AboveKernel v → s₀.translate v = some a →
  s.translate v = some a ∧ s.mem a = s₀.mem a

/-- What the loader does not take back between `s` and `s'`. -/
structure Later (s₀ s s' : Vm) : Prop where
  since : Since s₀ s'
  fresh : ∀ v, AboveKernel v → FreshAt s₀ s v → FreshAt s₀ s' v
  zero : ∀ v a, AboveKernel v → s₀.translate v = some a → s.mem a = 0 → s'.mem a = 0

section Since

variable {s₀ s s' s'' : Vm} {v a n : Nat}

theorem Since.refl (h : Guarded s) : Since s s :=
  ⟨h, h, fun _ hf => hf, fun _ _ hg => hg, fun _ _ => .inl rfl⟩

theorem Later.refl (h : Since s₀ s) : Later s₀ s s := ⟨h, fun _ _ hf => hf, fun _ _ _ _ ha => ha⟩

theorem Later.trans (h : Later s₀ s s') (h' : Later s₀ s' s'') : Later s₀ s s'' :=
  ⟨h'.since, fun v hv hf => h'.fresh v hv (h.fresh v hv hf),
    fun v a hv ha hz => h'.zero v a hv ha (h.zero v a hv ha hz)⟩

/-- A fresh page is not where a page of `s₀` was. -/
theorem Since.fresh_ne (h : Since s₀ s) (hv : AboveKernel v) {w b : Nat}
    (ha : s₀.translate v = some a) (hfresh : FreshAt s₀ s w) (hb : s.translate w = some b) :
    b ≠ a := by
  obtain ⟨g, hg, hfree, -, rfl⟩ := h.start.translate hv.1 hv.2 ha
  obtain ⟨f, hf, hf'⟩ := hfresh
  have hframe := (h.start.unused f hf).1
  have haligned := (frameOf_frame f).1
  rw [hframe] at haligned
  obtain rfl := Option.some.inj (hb.symm.trans hf')
  intro heq
  obtain rfl : f = g := by omega
  exact hfree hf

/-- A page that is where it was has been there all the time. -/
theorem Later.old (h : Later s₀ s s') (hs : Since s₀ s) (hv : AboveKernel v)
    (ha : s₀.translate v = some a) (ha' : s'.translate v = some a) : s.translate v = some a := by
  rcases hs.frames v hv with hsame | hfresh
  · rw [hsame, ha]
  · exact absurd rfl (h.since.fresh_ne hv ha (h.fresh v hv hfresh) ha')

/-- All addresses of a page are mapped, or none. -/
theorem translate_page {w : Nat} (hdir : frameOf s.cr3 = s.cr3) (hpage : w / 4096 = v / 4096)
    (hv : s.translate v = none) : s.translate w = none := by
  rw [vaddr_eq v, translate_split hdir (by omega) (by omega)] at hv
  rw [vaddr_eq w, translate_split hdir (by omega) (by omega), show w / 2 ^ 22 = v / 2 ^ 22 by omega,
    show w / 2 ^ 12 % 1024 = v / 2 ^ 12 % 1024 by omega]
  split at hv
  · cases hv
  · next hmapped => rw [if_neg hmapped]

/-- A page is mapped to a new frame. -/
theorem Since.allocPage (h : Since s₀ s) (hv : AboveKernel v) (hs : pagingAllocPage v s = some s') :
    Later s₀ s s' ∧ (∀ w, w / 4096 = v / 4096 → FreshAt s₀ s' w) ∧
      (s₀.translate v = none → PagesKept s₀ s → PagesKept s₀ s') := by
  obtain ⟨hguarded, -, f, hnew⟩ := h.guarded.allocPage hv.1 hv.2 hs
  have hfresh : ∀ w, w / 4096 = v / 4096 → FreshAt s₀ s' w :=
    fun w hw => ⟨f, h.free f hnew.frame, hnew.maps w hw⟩
  have hmem : ∀ w a, AboveKernel w → s₀.translate w = some a → s'.mem a = s.mem a := by
    intro w a hw ha
    obtain ⟨g, hg, hfree, hunused, rfl⟩ := h.start.translate hw.1 hw.2 ha
    exact hnew.mem g hg (fun hmem => hfree (h.free g hmem)) (h.unused g hfree hunused) _
      (Nat.mod_lt w (by decide))
  refine ⟨⟨⟨h.start, hguarded, fun g hg => h.free g (hnew.free g hg), ?_, ?_⟩, ?_, ?_⟩, hfresh, ?_⟩
  · intro g hg hunused
    exact hnew.unused g (fun hmem => hg (h.free g hmem)) (h.unused g hg hunused)
  · intro w hw
    by_cases hpage : w / 4096 = v / 4096
    · exact .inr (hfresh w hpage)
    · have hsame := hnew.others w hw.2 hpage
      unfold FreshAt
      rw [hsame]
      exact h.frames w hw
  · intro w hw hold
    by_cases hpage : w / 4096 = v / 4096
    · exact hfresh w hpage
    · unfold FreshAt
      rw [hnew.others w hw.2 hpage]
      exact hold
  · intro w a hw ha hz
    rw [hmem w a hw ha, hz]
  · intro hnone hkept w a hw ha
    have hpage : w / 4096 ≠ v / 4096 := by
      intro hpage
      rw [translate_page h.start.dir hpage hnone] at ha
      cases ha
    obtain ⟨htranslate, hbyte⟩ := hkept w a hw ha
    rw [hnew.others w hw.2 hpage, hmem w a hw ha]
    exact ⟨htranslate, hbyte⟩

/-- If the byte is where it was in `s₀`, it is zero. -/
def Zeroed (s₀ s : Vm) (v : Nat) : Prop :=
  ∀ a, s₀.translate v = some a → s.translate v = some a → s.mem a = 0

/-- A zero at this address changes nothing. -/
def ZeroIn (s₀ : Vm) (v : Nat) : Prop := ∀ b, s₀.read8 v = some b → b = 0

theorem Zeroed.later (h : Zeroed s₀ s v) (hs : Since s₀ s) (hv : AboveKernel v)
    (hlater : Later s₀ s s') : Zeroed s₀ s' v :=
  fun a ha ha' => hlater.zero v a hv ha (h a ha (hlater.old hs hv ha ha'))

/-- A byte is stored, a zero if the page is not a new one. -/
theorem Since.write8 (h : Since s₀ s) (hv : AboveKernel v) {b : UInt8}
    (hb : FreshAt s₀ s v ∨ b = 0) (hs : s.write8 v b = some s') :
    Later s₀ s s' ∧ (b = 0 → Zeroed s₀ s' v) ∧
      (FreshAt s₀ s v ∨ ZeroIn s₀ v → PagesKept s₀ s → PagesKept s₀ s') := by
  obtain ⟨hguarded, -, htranslate, hunused, x, hx, rfl⟩ := h.guarded.write8 hv.1 hv.2 hs
  have hfreshAt : ∀ w, AboveKernel w → (FreshAt s₀ { s with mem := Function.update s.mem x b } w ↔
      FreshAt s₀ s w) := by
    intro w hw
    unfold FreshAt
    rw [htranslate w hw.2]
  refine ⟨⟨⟨h.start, hguarded, h.free, ?_, ?_⟩, ?_, ?_⟩, ?_, ?_⟩
  · exact fun g hg hg' => hunused g (h.unused g hg hg')
  · intro w hw
    rw [htranslate w hw.2, hfreshAt w hw]
    exact h.frames w hw
  · exact fun w hw hfresh => (hfreshAt w hw).mpr hfresh
  · intro w a hw ha hz
    by_cases hxa : a = x
    · rcases hb with hfresh | rfl
      · exact absurd hxa.symm (h.fresh_ne hw ha hfresh hx)
      · rw [hxa]
        exact Function.update_self _ _ _
    · exact (Function.update_of_ne hxa _ _).trans hz
  · rintro rfl a - ha
    rw [htranslate v hv.2, hx] at ha
    obtain rfl := Option.some.inj ha
    exact Function.update_self _ _ _
  · intro hharmless hkept w a hw ha
    obtain ⟨hwa, hbyte⟩ := hkept w a hw ha
    rw [htranslate w hw.2]
    refine ⟨hwa, ?_⟩
    by_cases hxa : a = x
    · -- the page was there before, and its byte was zero
      subst hxa
      have hold : ¬ FreshAt s₀ s v := fun hfresh => h.fresh_ne hw ha hfresh hx rfl
      have hsame := (h.frames v hv).resolve_right hold
      have hzero := hharmless.resolve_left hold (s₀.mem a) (by rw [Vm.read8, ← hsame, hx]; rfl)
      dsimp only
      rw [hb.resolve_left hold, Function.update_self, hzero]
    · exact (Function.update_of_ne hxa _ _).trans hbyte

/-- Bytes are stored to one page. -/
theorem Since.storeBytes {g : Nat → UInt8} (h : Since s₀ s) (hv : ∀ i < n, AboveKernel (v + i))
    (hg : (∀ i < n, FreshAt s₀ s (v + i)) ∨ ∀ i < n, g i = 0)
    (hs : storeBytes v n g s = some s') :
    Later s₀ s s' ∧ ((∀ i < n, g i = 0) → ∀ i < n, Zeroed s₀ s' (v + i)) ∧
      ((∀ i < n, FreshAt s₀ s (v + i) ∨ ZeroIn s₀ (v + i)) → PagesKept s₀ s → PagesKept s₀ s') := by
  refine Loop.foldlM_range_keeps (fun k t => Later s₀ s t ∧
    ((∀ i < n, g i = 0) → ∀ i < k, Zeroed s₀ t (v + i)) ∧
    ((∀ i < n, FreshAt s₀ s (v + i) ∨ ZeroIn s₀ (v + i)) → PagesKept s₀ s → PagesKept s₀ t)) hs
    ⟨.refl h, by omega, fun _ hkept => hkept⟩ ?_
  intro k t t' hk ⟨hlater, hzeroed, hkept⟩ hwrite
  have hvk := hv k hk
  obtain ⟨hlater', hzero', hkept'⟩ := hlater.since.write8 hvk
    (hg.imp (fun hf => hlater.fresh _ hvk (hf k hk)) fun hz => hz k hk) hwrite
  refine ⟨hlater.trans hlater', ?_, ?_⟩
  · intro hz i hi
    by_cases hik : i = k
    · rw [hik]
      exact hzero' (hz k hk)
    · exact (hzeroed hz i (by omega)).later hlater.since (hv i (by omega)) hlater'
  · intro hall hstart
    exact hkept' ((hall k hk).imp (hlater.fresh _ hvk) id) (hkept hall hstart)

section Loops

variable {fs : FsState} {ino fuel off : Nat} {r : Int}

/-- The file part of a segment takes new pages. -/
theorem Since.loadFile (h : Since s₀ s) (hlow : 0 < n → 0x400000 ≤ a) (hhigh : 0 < n → a + n ≤ 0xFFC00000)
    (hread : (sfsReadInode fs ino).isSome = true) (hfuel : n ≤ fuel)
    (hs : loadFile fs ino fuel a off n s = some (r, s')) :
    Later s₀ s s' ∧ (∀ k < n, FreshAt s₀ s' (a + k)) ∧
      ((∀ k < n, s₀.translate (a + k) = none) → PagesKept s₀ s → PagesKept s₀ s') := by
  induction fuel generalizing a off n s with
  | zero =>
      obtain ⟨-, rfl⟩ : 0 = r ∧ s = s' := by simpa [Elf.loadFile] using hs
      exact ⟨.refl h, by omega, fun _ hkept => hkept⟩
  | succ fuel ih =>
      unfold Elf.loadFile at hs
      by_cases hn : n = 0
      · rw [if_pos hn] at hs
        obtain ⟨-, rfl⟩ : 0 = r ∧ s = s' := by simpa using hs
        exact ⟨.refl h, by omega, fun _ hkept => hkept⟩
      · rw [if_neg hn] at hs
        have hlow' := hlow (by omega)
        have hhigh' := hhigh (by omega)
        simp only [Option.bind_eq_bind, and_0xFFF, frameOf_page (show a < 2 ^ 32 by omega)] at hs
        generalize hm : min (4096 - a % 4096) n = m at hs
        obtain ⟨s₁, hs₁, hs⟩ := Option.bind_eq_some_iff.mp hs
        have hnonneg := readFileAt_nonneg hread zeros (show m < 2 ^ 31 by omega) off
        rw [if_neg (by omega)] at hs
        obtain ⟨s₂, hs₂, hs⟩ := Option.bind_eq_some_iff.mp hs
        rw [u32_of_lt (show a + m < 2 ^ 32 by omega)] at hs
        have haddr : a / 4096 * 4096 + a % 4096 = a := by omega
        rw [haddr] at hs₂
        obtain ⟨hlater₁, hfresh₁, hkept₁⟩ := h.allocPage ⟨by omega, by omega⟩ hs₁
        have hpage : ∀ i < m, FreshAt s₀ s₁ (a + i) := fun i hi => hfresh₁ _ (by omega)
        obtain ⟨hlater₂, -, hkept₂⟩ := hlater₁.since.storeBytes
          (fun i hi => ⟨by omega, by omega⟩) (.inl hpage) hs₂
        obtain ⟨hlater₃, hfresh₃, hkept₃⟩ := ih hlater₂.since (by omega) (by omega) (by omega) hs
        refine ⟨(hlater₁.trans hlater₂).trans hlater₃, ?_, ?_⟩
        · intro k hk
          by_cases hkm : k < m
          · exact (hlater₂.trans hlater₃).fresh _ ⟨by omega, by omega⟩ (hpage k hkm)
          · have hrest := hfresh₃ (k - m) (by omega)
            rwa [show a + m + (k - m) = a + k by omega] at hrest
        · intro hnone hstart
          refine hkept₃ (fun k hk => ?_) (hkept₂ (fun i hi => .inl (hpage i hi)) (hkept₁ ?_ hstart))
          · rw [Nat.add_assoc]
            exact hnone (m + k) (by omega)
          · exact translate_page h.start.dir (by omega) (hnone 0 (by omega))

/-- The test for a missing page. -/
theorem pageMissing_translate (h : SelfMapped s) (hv : v < 0xFFC00000) :
    pageMissing v s = some (s.translate v).isNone := by
  obtain ⟨hpd, hpt, -⟩ := @vaddr_split (v / 2 ^ 22) (v / 2 ^ 12 % 1024) (v % 4096) (by omega) (by omega)
  have hread := h.ident.read32 (show 4 * (v / 2 ^ 22) < 4096 by omega)
  rw [vaddr_eq v, translate_split h.dir (by omega) (by omega), mapped]
  unfold pageMissing
  simp only [hpd, hpt, hread, Option.bind_eq_bind, Option.bind_some]
  change (if (!present (pdeAt s.mem s.cr3 (v / 2 ^ 22))) = true then _ else _) = _
  cases hpde : present (pdeAt s.mem s.cr3 (v / 2 ^ 22)) with
  | false => rfl
  | true =>
      have hwindow := translate_window h.dir h.self (show v / 2 ^ 22 < 1024 by omega)
        (show 4 * (v / 2 ^ 12 % 1024) < 4096 by omega) hpde
      simp only [Vm.read32, hwindow, Option.map_some, Option.bind_some]
      change some (!present (pteAt s.mem s.cr3 (v / 2 ^ 22) (v / 2 ^ 12 % 1024))) = _
      cases present (pteAt s.mem s.cr3 (v / 2 ^ 22) (v / 2 ^ 12 % 1024)) <;> rfl

/-- The zeros of a segment take new pages only where there is none. -/
theorem Since.loadBss (h : Since s₀ s) (hlow : 0 < n → 0x400000 ≤ a)
    (hhigh : 0 < n → a + n ≤ 0xFFC00000) (hfuel : n ≤ fuel) (hs : loadBss fuel a n s = some s') :
    Later s₀ s s' ∧ (∀ k < n, Zeroed s₀ s' (a + k)) ∧
      ((∀ k < n, ZeroIn s₀ (a + k)) → PagesKept s₀ s → PagesKept s₀ s') := by
  induction fuel generalizing a n s with
  | zero =>
      obtain rfl : s = s' := by simpa [Elf.loadBss] using hs
      exact ⟨.refl h, by omega, fun _ hkept => hkept⟩
  | succ fuel ih =>
      unfold Elf.loadBss at hs
      by_cases hn : n = 0
      · rw [if_pos hn] at hs
        obtain rfl : s = s' := by simpa using hs
        exact ⟨.refl h, by omega, fun _ hkept => hkept⟩
      · rw [if_neg hn] at hs
        have hlow' := hlow (by omega)
        have hhigh' := hhigh (by omega)
        have hmissing := pageMissing_translate (v := a) h.guarded.toSelfMapped (by omega)
        simp only [Option.bind_eq_bind, and_0xFFF, frameOf_page (show a < 2 ^ 32 by omega), hmissing,
          Option.bind_some] at hs
        generalize hm : min (4096 - a % 4096) n = m at hs
        have haddr : a / 4096 * 4096 + a % 4096 = a := by omega
        rw [haddr] at hs
        -- the page is there, or it is allocated now
        obtain ⟨s₁, hs, hlater₁, hkept₁⟩ : ∃ s₁,
            (Elf.storeBytes a m (fun _ => 0) s₁).bind
              (fun s => Elf.loadBss fuel (u32 (a + m)) (n - m) s) = some s' ∧
            Later s₀ s s₁ ∧ (PagesKept s₀ s → PagesKept s₀ s₁) := by
          cases htranslate : s.translate a with
          | some x =>
              rw [htranslate] at hs
              exact ⟨s, hs, .refl h, id⟩
          | none =>
              rw [htranslate] at hs
              obtain ⟨s₁, hs₁, hs⟩ := Option.bind_eq_some_iff.mp hs
              obtain ⟨hlater, -, hkept⟩ := h.allocPage ⟨by omega, by omega⟩ hs₁
              refine ⟨s₁, hs, hlater, hkept ?_⟩
              have hnone : s₀.translate a = none := by
                rcases h.frames a ⟨hlow', by omega⟩ with hsame | ⟨f, -, hfresh⟩
                · rw [← hsame, htranslate]
                · rw [htranslate] at hfresh
                  cases hfresh
              exact translate_page h.start.dir (by omega) hnone
        obtain ⟨s₂, hs₂, hs⟩ := Option.bind_eq_some_iff.mp hs
        rw [u32_of_lt (show a + m < 2 ^ 32 by omega)] at hs
        obtain ⟨hlater₂, hzeroed₂, hkept₂⟩ := hlater₁.since.storeBytes
          (fun i hi => ⟨by omega, by omega⟩) (.inr fun _ _ => rfl) hs₂
        obtain ⟨hlater₃, hzeroed₃, hkept₃⟩ := ih hlater₂.since (by omega) (by omega) (by omega) hs
        refine ⟨(hlater₁.trans hlater₂).trans hlater₃, ?_, ?_⟩
        · intro k hk
          by_cases hkm : k < m
          · exact (hzeroed₂ (fun _ _ => rfl) k hkm).later hlater₂.since ⟨by omega, by omega⟩ hlater₃
          · have hrest := hzeroed₃ (k - m) (by omega)
            rwa [show a + m + (k - m) = a + k by omega] at hrest
        · intro hzero hstart
          refine hkept₃ (fun k hk => ?_)
            (hkept₂ (fun i hi => .inr (hzero i (by omega))) (hkept₁ hstart))
          rw [Nat.add_assoc]
          exact hzero (m + k) (by omega)

end Loops

/-- Loading the segment changes no page of `s₀`: its file part is on pages that were not mapped,
and its zeros are on bytes that were not mapped or zero. -/
structure LeavesPages (s₀ : Vm) (ph : Phdr) : Prop where
  file : ∀ k < ph.pFilesz, s₀.translate (ph.pVaddr + k) = none
  zeros : ∀ k, ph.pFilesz ≤ k → k < ph.pMemsz → ZeroIn s₀ (ph.pVaddr + k)

section Segments

variable {fs : FsState} {ino off phoff : Nat} {is : List Nat} {r : Int} {ph : Phdr}

theorem PagesKept.not_fresh (h : PagesKept s₀ s) (hs : Since s₀ s) (hv : AboveKernel v)
    (hfresh : FreshAt s₀ s v) : s₀.translate v = none := by
  cases ha : s₀.translate v with
  | none => rfl
  | some a => exact absurd rfl (hs.fresh_ne hv ha hfresh (h v a hv ha).1)

theorem PagesKept.zeroIn (h : PagesKept s₀ s) (hv : AboveKernel v) (hzero : Zeroed s₀ s v) :
    ZeroIn s₀ v := by
  intro b hb
  obtain ⟨a, ha, rfl⟩ := Option.map_eq_some_iff.mp hb
  obtain ⟨hsame, hbyte⟩ := h v a hv ha
  rw [← hbyte]
  exact hzero a ha hsame

/-- A segment keeps the pages if and only if it should. -/
theorem Since.loadSegment (h : Since s₀ s) (hclear : ClearOfKernel ph)
    (hread : (sfsReadInode fs ino).isSome = true) (hmem : ph.pMemsz < 2 ^ 32)
    (hs : loadSegment fs ino ph.pVaddr ph.pOffset ph.pFilesz ph.pMemsz s = some (r, s')) :
    Later s₀ s s' ∧ (LeavesPages s₀ ph → PagesKept s₀ s → PagesKept s₀ s') ∧
      ∀ t, Later s₀ s' t → PagesKept s₀ t → LeavesPages s₀ ph := by
  obtain ⟨hsizes, hlow, hhigh⟩ := hclear
  obtain ⟨⟨r₁, s₁⟩, hs₁, hs⟩ := Option.bind_eq_some_iff.mp hs
  obtain rfl := loadFile_result hread hs₁
  dsimp only at hs
  rw [if_neg (by decide), u32Sub_of_le hmem hsizes] at hs
  obtain ⟨s₂, hs₂, hs⟩ := Option.bind_eq_some_iff.mp hs
  obtain ⟨-, rfl⟩ : 0 = r ∧ s₂ = s' := by simpa using hs
  obtain ⟨hlater₁, hfresh, hkept₁⟩ := h.loadFile (by omega) (by omega) hread (le_refl _) hs₁
  have hbss : ∃ s₂', Elf.loadBss (ph.pMemsz - ph.pFilesz) (ph.pVaddr + ph.pFilesz)
      (ph.pMemsz - ph.pFilesz) s₁ = some s₂' ∧ s₂' = s₂ := by
    by_cases hnone : ph.pMemsz - ph.pFilesz = 0
    · rw [hnone] at hs₂ ⊢
      exact ⟨_, hs₂, rfl⟩
    · rw [u32_of_lt (by omega)] at hs₂
      exact ⟨_, hs₂, rfl⟩
  obtain ⟨_, hs₂', rfl⟩ := hbss
  obtain ⟨hlater₂, hzeroed, hkept₂⟩ := hlater₁.since.loadBss (by omega) (by omega) (le_refl _) hs₂'
  refine ⟨hlater₁.trans hlater₂, ?_, ?_⟩
  · rintro ⟨hfile, hzeros⟩ hstart
    refine hkept₂ (fun k hk => ?_) (hkept₁ hfile hstart)
    rw [Nat.add_assoc]
    exact hzeros _ (by omega) (by omega)
  · intro t hlater hkept
    constructor
    · intro k hk
      have hv : AboveKernel (ph.pVaddr + k) := ⟨by omega, by omega⟩
      exact hkept.not_fresh hlater.since hv
        ((hlater₂.trans hlater).fresh _ hv (hfresh k hk))
    · intro k hk hk'
      have hv : AboveKernel (ph.pVaddr + k) := ⟨by omega, by omega⟩
      have hzero := hzeroed (k - ph.pFilesz) (by omega)
      rw [show ph.pVaddr + ph.pFilesz + (k - ph.pFilesz) = ph.pVaddr + k by omega] at hzero
      exact hkept.zeroIn hv (hzero.later hlater₂.since hv hlater)

theorem Since.loadSegments (h : Since s₀ s) (hread : (sfsReadInode fs ino).isSome = true)
    (hclear : ∀ ph ∈ segmentsAt fs ino phoff (headersRead fs ino phoff is), ClearOfKernel ph)
    (hs : loadSegments fs ino phoff is s = some (r, s')) :
    Later s₀ s s' ∧
      ((∀ ph ∈ segmentsAt fs ino phoff (headersRead fs ino phoff is), LeavesPages s₀ ph) →
        PagesKept s₀ s → PagesKept s₀ s') ∧
      ∀ t, Later s₀ s' t → PagesKept s₀ t →
        ∀ ph ∈ segmentsAt fs ino phoff (headersRead fs ino phoff is), LeavesPages s₀ ph := by
  induction is generalizing s with
  | nil =>
      obtain ⟨-, rfl⟩ : 0 = r ∧ s = s' := by simpa [Elf.loadSegments] using hs
      exact ⟨.refl h, fun _ hkept => hkept, fun _ _ _ ph hph => by cases hph⟩
  | cons i is ih =>
      by_cases hhas : hasPhdr fs ino phoff i
      · rw [segmentsAt_read hhas] at hclear ⊢
        by_cases htype : (phdrAt fs ino phoff i).pType = ptLoad
        · rw [if_pos htype] at hclear ⊢
          have hload : Elf.loadSegments fs ino phoff (i :: is) s =
              (Elf.loadSegment fs ino (phdrAt fs ino phoff i).pVaddr (phdrAt fs ino phoff i).pOffset
                (phdrAt fs ino phoff i).pFilesz (phdrAt fs ino phoff i).pMemsz s).bind
                fun x => if x.1 < 0 then some (-1, x.2) else Elf.loadSegments fs ino phoff is x.2 :=
            (if_neg (Int.not_lt.mpr hhas)).trans (if_neg (not_not_intro htype))
          rw [hload] at hs
          obtain ⟨⟨r₁, s₁⟩, hs₁, hs⟩ := Option.bind_eq_some_iff.mp hs
          obtain rfl := loadSegment_result hread hs₁
          dsimp only at hs
          rw [if_neg (by decide)] at hs
          obtain ⟨hlater₁, hkept₁, hback₁⟩ := h.loadSegment (hclear _ List.mem_cons_self) hread
            (phdrAt_lt fs ino phoff i).2.2 hs₁
          obtain ⟨hlater₂, hkept₂, hback₂⟩ := ih hlater₁.since
            (fun ph hph => hclear ph (List.mem_cons_of_mem _ hph)) hs
          refine ⟨hlater₁.trans hlater₂, ?_, ?_⟩
          · intro hall hstart
            exact hkept₂ (fun ph hph => hall ph (List.mem_cons_of_mem _ hph))
              (hkept₁ (hall _ List.mem_cons_self) hstart)
          · intro t hlater hkept ph hph
            rcases List.mem_cons.mp hph with rfl | hph
            · exact hback₁ t (hlater₂.trans hlater) hkept
            · exact hback₂ t hlater hkept ph hph
        · rw [if_neg htype] at hclear ⊢
          have hskip : Elf.loadSegments fs ino phoff (i :: is) s = Elf.loadSegments fs ino phoff is s :=
            (if_neg (Int.not_lt.mpr hhas)).trans (if_pos htype)
          rw [hskip] at hs
          exact ih h hclear hs
      · rw [segmentsAt_unread hhas]
        have hstop : Elf.loadSegments fs ino phoff (i :: is) s = some (-1, s) :=
          if_pos (Int.not_le.mp hhas)
        obtain ⟨-, rfl⟩ : -1 = r ∧ s = s' := by simpa [hstop] using hs
        exact ⟨.refl h, fun _ hkept => hkept, fun _ _ _ ph hph => by cases hph⟩

end Segments

end Since

/-- For every file and every guarded address space: the caller of a call that returns -1 has its
registers and pages as before if the segments that the call came to are clear of the kernel and
leave the pages, and for segments that are clear of the kernel only then. -/
theorem failed_exec_iff {fs : FsState} {path : CStr} {regs regs' : Registers} {s s' : Vm}
    (h : Guarded s) (hs : elfLoadAndExec fs path regs s = some (-1, regs', s')) :
    ((∀ ph ∈ segmentsReached fs path, ClearOfKernel ph ∧ LeavesPages s ph) →
      regs' = regs ∧ PagesKept s s') ∧
    ((∀ ph ∈ segmentsReached fs path, ClearOfKernel ph) → regs' = regs ∧ PagesKept s s' →
      ∀ ph ∈ segmentsReached fs path, LeavesPages s ph) := by
  have hkept : PagesKept s s := fun v a _ ha => ⟨ha, rfl⟩
  rw [← Accesses.value_elfLoadAndExec (le_refl _)] at hs
  rcases exec_cases fs path with ⟨hnone, hexec⟩ | ⟨ino, -, hhas, hreached, hexec⟩
  · rw [hexec] at hs
    obtain ⟨-, rfl, rfl⟩ : -1 = (-1 : Int) ∧ regs = regs' ∧ s = s' := by simpa using hs
    rw [hnone]
    exact ⟨fun _ => ⟨rfl, hkept⟩, fun _ _ ph hph => by cases hph⟩
  · rw [hexec, Traced.value_run_bind, Accesses.value_loadSegments (le_refl _)] at hs
    obtain ⟨⟨r₁, s₁⟩, hs₁, hs⟩ := Option.bind_eq_some_iff.mp hs
    rw [hreached]
    dsimp only at hs
    split at hs
    · obtain ⟨-, rfl, rfl⟩ : -1 = (-1 : Int) ∧ regs = regs' ∧ s₁ = s' := by simpa using hs
      constructor
      · intro hall
        obtain ⟨-, hforth, -⟩ := (Since.refl h).loadSegments hhas.readable
          (fun ph hph => (hall ph hph).1) hs₁
        exact ⟨rfl, hforth (fun ph hph => (hall ph hph).2) hkept⟩
      · rintro hclear ⟨-, hpages⟩
        obtain ⟨hlater, -, hback⟩ := (Since.refl h).loadSegments hhas.readable hclear hs₁
        exact hback s₁ (.refl hlater.since) hpages
    · rw [Traced.value_run_bind] at hs
      obtain ⟨s₂, -, hs⟩ := Option.bind_eq_some_iff.mp hs
      simp at hs

/-! ## Two truncated executables -/

/-- An address space after boot with a user page at 256 MB, and none behind it. -/
theorem exists_user_page : ∃ s₀ s, boot (fun _ => 0) = some s₀ ∧
    pagingAllocPage 0x10000000 s₀ = some s ∧ Guarded s ∧
    (∀ v, v / 4096 = 0x10000 ∨ v / 4096 = 0x10001 →
      ∃ s', pagingAllocPage v s = some s' ∧ (s'.translate v).isSome = true) ∧
    (s.translate 0x10000000).isSome = true ∧ s.translate 0x10001000 = none := by
  obtain ⟨s₀, hboot, hcr3, hlaid, hrest, hlen⟩ := boot_laid (fun _ => 0) 0
  have hframes : framesForPage s₀ 64 ≤ 2 := by
    unfold framesForPage
    split <;> decide
  rcases @Laid.allocPage_cases _ s₀ 64 0 0 hlaid (by decide) (by decide) (by decide) (by decide) with
    ⟨f, own, s, hs, hnew, hpops⟩ | ⟨-, hlt⟩
  · have hguarded := hnew.laid.guarded
    have hpde : present (pdeAt s.mem s.cr3 64) = true := by
      rw [hnew.cr3, hnew.pdes 64 (by decide) (by decide)]
      rfl
    refine ⟨s₀, s, hboot, hs, hguarded, ?_, ?_, ?_⟩
    · intro v hv
      have hentry : v / 2 ^ 22 = 64 := by omega
      refine hguarded.toRegular.allocPage_maps (by omega) (by rwa [hentry]) fun hnil => ?_
      rw [hnil, List.length_nil] at hpops
      omega
    · have hmaps := hnew.maps 0 (by decide)
      change s.translate 0x10000000 = _ at hmaps
      rw [hmaps]
      rfl
    · have hother := hnew.others 64 1 0 (by decide) (by decide) (by decide) (by decide)
      change s.translate 0x10001000 = s₀.translate 0x10001000 at hother
      have hsplit := @translate_split s₀ 64 1 0 hlaid.core.cr3_frame (by decide) (by decide)
      change s₀.translate 0x10001000 = _ at hsplit
      rw [hother, hsplit, mapped, hcr3, hrest 64 (by decide) (by decide)]
      rfl
  · omega

/-- One byte at `v`. -/
def userByte (v : Nat) : Phdr := ⟨1, 84, v, 1, 1⟩

/-- The page of a program is lost in a call that fails. -/
theorem failed_exec_loses_page : ∃ fs s₀ s s', Reach fsStep dataOk (fsBoot .blank) fs ∧
    boot (fun _ => 0) = some s₀ ∧ pagingAllocPage 0x10000000 s₀ = some s ∧ Guarded s ∧
    elfLoadAndExec fs programPath {} s = some (-1, {}, s') ∧ ¬ PagesKept s s' := by
  obtain ⟨fs, hreach, hread, -, hexec⟩ :=
    @exec_truncated (userByte 0x10000000) (by decide +kernel) rfl
  obtain ⟨s₀, s, hboot, hs, hguarded, halloc, hmapped, -⟩ := exists_user_page
  obtain ⟨s₁, hs₁, hmapped₁⟩ := halloc 0x10000000 (.inl rfl)
  obtain ⟨s', hload⟩ := @loadSegment_byte _ _ _ 84 _ _ hread (by decide) hs₁ hmapped₁
  refine ⟨fs, s₀, s, s', hreach, hboot, hs, hguarded, hexec {} s s' hload, fun hkept => ?_⟩
  have hclear : ClearOfKernel (userByte 0x10000000) := ⟨by decide, by decide, by decide⟩
  obtain ⟨hlater, -, hback⟩ := (Since.refl hguarded).loadSegment hclear hread (by decide) hload
  have hnone := (hback s' (.refl hlater.since) hkept).file 0 (by decide)
  change s.translate 0x10000000 = none at hnone
  rw [hnone] at hmapped
  cases hmapped

/-- A segment on a page of its own does no harm. -/
theorem failed_exec_keeps_page : ∃ fs s₀ s s', Reach fsStep dataOk (fsBoot .blank) fs ∧
    boot (fun _ => 0) = some s₀ ∧ pagingAllocPage 0x10000000 s₀ = some s ∧
    (s.translate 0x10000000).isSome = true ∧
    elfLoadAndExec fs programPath {} s = some (-1, {}, s') ∧ PagesKept s s' := by
  obtain ⟨fs, hreach, hread, hreached, hexec⟩ :=
    @exec_truncated (userByte 0x10001000) (by decide +kernel) rfl
  obtain ⟨s₀, s, hboot, hs, hguarded, halloc, hmapped, hnone⟩ := exists_user_page
  obtain ⟨s₁, hs₁, hmapped₁⟩ := halloc 0x10001000 (.inr rfl)
  obtain ⟨s', hload⟩ := @loadSegment_byte _ _ _ 84 _ _ hread (by decide) hs₁ hmapped₁
  have hrun := hexec {} s s' hload
  refine ⟨fs, s₀, s, s', hreach, hboot, hs, hmapped, hrun,
    ((failed_exec_iff hguarded hrun).1 fun ph hph => ?_).2⟩
  rw [hreached, List.mem_singleton] at hph
  subst hph
  refine ⟨⟨by decide, by decide, by decide⟩, fun k hk => ?_, fun k hk hk' => ?_⟩
  · obtain rfl : k = 0 := Nat.lt_one_iff.mp hk
    exact hnone
  · exact absurd hk (Nat.not_le.mpr hk')

end SRos.Elf
