import SRos.Paging.Map

/-!
# What the frames are used for

The allocator starts with 260 frames. Each of them is at any time free or used for one purpose,
and the directories and tables only refer to frames of the kinds that belong there. Frames of
tables and pages are never given back, so nothing is said about tables of directories that are
gone.
-/

namespace SRos.Paging

open Bytes

inductive Kind where
  /-- Not a frame of the allocator. -/
  | none
  | free
  | idTable
  | dir (owner : Nat)
  | stack (owner : Nat)
  | table
  | page
  deriving DecidableEq

/-- The frames that are pushed in front of `paging_init`, in the order of the calls. -/
def earlyFrames : List Nat := [0x111000, 0x112000, 0x113000, 0x114000]

/-- The frames that `kernel_after_paging` pushes. -/
def lateFrames : List Nat := (List.range 256).map fun k => 0x300000 + 0x1000 * k

def bootFrames : List Nat := earlyFrames ++ lateFrames

/-- The table of the first 4 MB, which all directories share. -/
def idTable : Nat := 0x113000

theorem isFrame_of_mem {f : Nat} (h : f ∈ bootFrames) : IsFrame f := by
  simp only [bootFrames, earlyFrames, lateFrames, List.mem_append, List.mem_cons, List.mem_map,
    List.mem_range, List.not_mem_nil, or_false] at h
  unfold IsFrame lowEnd
  rcases h with (rfl | rfl | rfl | rfl) | ⟨k, hk, rfl⟩
  all_goals omega

theorem zero_not_mem_bootFrames : 0 ∉ bootFrames := by
  simp [bootFrames, earlyFrames, lateFrames]

/-- The stack of the allocator holds the free frames. -/
structure Stacked (own : Nat → Kind) (fs : List Nat) : Prop where
  nodup : fs.Nodup
  mem_iff : ∀ f, f ∈ fs ↔ own f = .free
  boot : ∀ f, own f ≠ .none → f ∈ bootFrames

namespace Stacked

variable {own : Nat → Kind} {fs : List Nat} {f : Nat} {k : Kind}

theorem isFrame (h : Stacked own fs) (hf : own f ≠ .none) : IsFrame f := isFrame_of_mem (h.boot f hf)

theorem top (h : Stacked own (f :: fs)) : own f = .free := (h.mem_iff f).mp (by simp)

/-- The top of the stack is taken for some purpose. -/
theorem pop (h : Stacked own (f :: fs)) (hk : k ≠ .free) : Stacked (Function.update own f k) fs where
  nodup := (List.nodup_cons.mp h.nodup).2
  mem_iff := by
    intro g
    by_cases hg : g = f
    · rw [hg, Function.update_self]
      exact iff_of_false (List.nodup_cons.mp h.nodup).1 hk
    · rw [Function.update_of_ne hg, ← h.mem_iff g]
      simp [hg]
  boot := by
    intro g hg
    by_cases hgf : g = f
    · exact h.boot g (by rw [hgf, h.top]; decide)
    · exact h.boot g (by rwa [Function.update_of_ne hgf] at hg)

/-- A frame in use is given back. -/
theorem push (h : Stacked own fs) (hnone : own f ≠ .none) (hfree : own f ≠ .free) :
    Stacked (Function.update own f .free) (f :: fs) where
  nodup := List.nodup_cons.mpr ⟨fun hmem => hfree ((h.mem_iff f).mp hmem), h.nodup⟩
  mem_iff := by
    intro g
    by_cases hg : g = f
    · simp [hg]
    · rw [Function.update_of_ne hg, ← h.mem_iff g]
      simp [hg]
  boot := by
    intro g hg
    by_cases hgf : g = f
    · exact h.boot g (hgf ▸ hnone)
    · exact h.boot g (by rwa [Function.update_of_ne hgf] at hg)

/-- The frames on top of the stack are taken for purposes given by a function. -/
theorem pops {ps : List Nat} {use : Nat → Kind} (h : Stacked own (ps ++ fs))
    (huse : ∀ f ∈ ps, use f ≠ .free) :
    Stacked (fun f => if f ∈ ps then use f else own f) fs where
  nodup := (List.nodup_append.mp h.nodup).2.1
  mem_iff := by
    intro g
    have hdisj := (List.nodup_append.mp h.nodup).2.2
    by_cases hg : g ∈ ps
    · simp only [hg, if_true, huse g hg, iff_false]
      exact fun hmem => hdisj g hg g hmem rfl
    · simp only [hg, if_false, ← h.mem_iff g, List.mem_append, false_or]
  boot := by
    intro g hg
    by_cases hgp : g ∈ ps
    · refine h.boot g ?_
      rw [(h.mem_iff g).mp (List.mem_append_left _ hgp)]
      decide
    · exact h.boot g (by simpa [hgp] using hg)

theorem length_le (h : Stacked own fs) : fs.length ≤ 260 := by
  have hsub : fs ⊆ bootFrames := by
    intro f hf
    exact h.boot f (by rw [(h.mem_iff f).mp hf]; decide)
  have hlen := h.nodup.length_le_of_subset hsub
  simpa [bootFrames, earlyFrames, lateFrames] using hlen

end Stacked

/-- Frames whose contents the translation depends on. -/
def Kind.structural : Kind → Bool
  | .idTable | .dir _ | .table => true
  | _ => false

/-- The frames are used as `own` says. -/
structure Laid (own : Nat → Kind) (s : Vm) : Prop where
  stacked : Stacked own s.free
  id : own idTable = .idTable
  identity : ∀ j < 1024, load32 s.mem (idTable + 4 * j) = j * 4096 ||| 0x03
  first : ∀ d k, own d = .dir k → pdeAt s.mem d 0 = idTable ||| 0x03
  self : ∀ d k, own d = .dir k → pdeAt s.mem d 1023 = d ||| 0x03
  entries : ∀ d k, own d = .dir k → ∀ i, 1 ≤ i → i < 1023 →
    present (pdeAt s.mem d i) = true → own (frameOf (pdeAt s.mem d i)) = .table
  distinct : ∀ d k, own d = .dir k → ∀ i i', 1 ≤ i → i < 1023 → 1 ≤ i' → i' < 1023 →
    present (pdeAt s.mem d i) = true → present (pdeAt s.mem d i') = true →
    frameOf (pdeAt s.mem d i) = frameOf (pdeAt s.mem d i') → i = i'
  targets : ∀ t, own t = .table → ∀ j < 1024,
    present (load32 s.mem (t + 4 * j)) = true → own (frameOf (load32 s.mem (t + 4 * j))) = .page
  cr3 : ∃ k, own s.cr3 = .dir k

namespace Laid

variable {own : Nat → Kind} {s : Vm} {f : Nat} {fs : List Nat} {k : Kind}

theorem isFrame (h : Laid own s) (hf : own f ≠ .none) : IsFrame f := h.stacked.isFrame hf

theorem core (h : Laid own s) : Core idTable s := by
  obtain ⟨k, hk⟩ := h.cr3
  have htable : IsFrame idTable := h.isFrame (by simp [h.id])
  refine ⟨h.isFrame (by simp [hk]), htable, ?_, h.self _ k hk, ?_⟩
  · rw [h.first _ k hk]
    exact kernelEntry htable.1 htable.lt
  · intro j hj
    rw [h.identity j hj]
    exact kernelEntry (by omega) (by omega)

/-- Frames of different kinds are different. -/
theorem ne_of_own {g : Nat} {k' : Kind} (hf : own f = k) (hg : own g = k') (hk : k ≠ k') :
    f ≠ g := by
  rintro rfl
  exact hk (hf.symm.trans hg)

theorem idTable_ne (h : Laid own s) : idTable ≠ s.cr3 := by
  obtain ⟨k, hk⟩ := h.cr3
  exact ne_of_own h.id hk (by simp)

theorem free_of_mem (h : Laid own s) (hf : f ∈ s.free) : own f = .free := (h.stacked.mem_iff f).mp hf

/-- The directories and the identity table keep their entries, and those of the tables still refer
to pages. -/
theorem rewrite {m : Nat → UInt8} (h : Laid own s)
    (hid : ∀ j < 1024, load32 m (idTable + 4 * j) = load32 s.mem (idTable + 4 * j))
    (hdir : ∀ d k, own d = .dir k → ∀ i < 1024, pdeAt m d i = pdeAt s.mem d i)
    (htargets : ∀ t, own t = .table → ∀ j < 1024,
      present (load32 m (t + 4 * j)) = true → own (frameOf (load32 m (t + 4 * j))) = .page) :
    Laid own { s with mem := m } := by
  refine ⟨h.stacked, h.id, ?_, ?_, ?_, ?_, ?_, htargets, h.cr3⟩
  · exact fun j hj => (hid j hj).trans (h.identity j hj)
  · exact fun d k hd => (hdir d k hd 0 (by omega)).trans (h.first d k hd)
  · exact fun d k hd => (hdir d k hd 1023 (by omega)).trans (h.self d k hd)
  · intro d k hd i hi₀ hi
    rw [hdir d k hd i (by omega)]
    exact h.entries d k hd i hi₀ hi
  · intro d k hd i i' hi₀ hi hi₀' hi'
    rw [hdir d k hd i (by omega), hdir d k hd i' (by omega)]
    exact h.distinct d k hd i i' hi₀ hi hi₀' hi'

/-- Memory that the translation does not depend on can change. -/
theorem write {m : Nat → UInt8} (h : Laid own s)
    (hmem : ∀ f, (own f).structural = true → ∀ o < 4096, m (f + o) = s.mem (f + o)) :
    Laid own { s with mem := m } := by
  have hword : ∀ f, (own f).structural = true → ∀ j < 1024,
      load32 m (f + 4 * j) = load32 s.mem (f + 4 * j) := by
    intro f hf j hj
    apply load32_congr
    intro a ha ha'
    have hbyte := hmem f hf (a - f) (by omega)
    rwa [show f + (a - f) = a by omega] at hbyte
  apply h.rewrite
  · exact hword idTable (by rw [h.id]; rfl)
  · exact fun d k hd => hword d (by rw [hd]; rfl)
  · intro t ht j hj
    rw [hword t (by rw [ht]; rfl) j hj]
    exact h.targets t ht j hj

/-- A frame of a kind that no entry refers to becomes free, or a free one is used. -/
theorem retag (h : Laid own s) (hold : own f = .free ∨ ∃ n, own f = .stack n ∨ own f = .dir n)
    (hcr3 : f ≠ s.cr3) (hk : k = .free ∨ k = .page ∨ ∃ n, k = .stack n)
    (hstacked : Stacked (Function.update own f k) fs) :
    Laid (Function.update own f k) { s with free := fs } := by
  have hback : ∀ g, (Function.update own f k g).structural = true →
      Function.update own f k g = own g := by
    intro g hg
    by_cases hgf : g = f
    · rw [hgf, Function.update_self] at hg
      rcases hk with rfl | rfl | ⟨n, rfl⟩ <;> cases hg
    · exact Function.update_of_ne hgf _ _
  have hkeep : ∀ g, own g = .idTable ∨ own g = .table ∨ own g = .page →
      Function.update own f k g = own g := by
    intro g hg
    apply Function.update_of_ne
    rintro rfl
    rcases hold with hfree | ⟨n, hfree | hfree⟩ <;> simp [hfree] at hg
  have hdir : ∀ d n, Function.update own f k d = .dir n → own d = .dir n := by
    intro d n hd
    rwa [hback d (by rw [hd]; rfl)] at hd
  refine ⟨hstacked, ?_, h.identity, fun d n hd => h.first d n (hdir d n hd),
    fun d n hd => h.self d n (hdir d n hd), ?_, fun d n hd => h.distinct d n (hdir d n hd), ?_, ?_⟩
  · rw [hkeep _ (.inl h.id), h.id]
  · intro d n hd i hi₀ hi hp
    have htable := h.entries d n (hdir d n hd) i hi₀ hi hp
    dsimp only
    rw [hkeep _ (.inr (.inl htable)), htable]
  · intro t ht j hj hp
    rw [hback t (by rw [ht]; rfl)] at ht
    have hpage := h.targets t ht j hj hp
    dsimp only
    rw [hkeep _ (.inr (.inr hpage)), hpage]
  · obtain ⟨n, hn⟩ := h.cr3
    exact ⟨n, by dsimp only; rwa [Function.update_of_ne hcr3.symm]⟩

/-- The top of the stack is taken as a page or as a kernel stack. -/
theorem pop (h : Laid own s) (hfree : s.free = f :: fs) (hk : k = .page ∨ ∃ n, k = .stack n) :
    Laid (Function.update own f k) { s with free := fs } := by
  have hf := h.free_of_mem (f := f) (by simp [hfree])
  have hstacked := h.stacked
  rw [hfree] at hstacked
  obtain ⟨n, hn⟩ := h.cr3
  apply h.retag (.inl hf) (ne_of_own hf hn (by simp)) (.inr hk) (hstacked.pop _)
  · rcases hk with rfl | ⟨n, rfl⟩ <;> simp

/-- A kernel stack or a directory that is not in use is given back. -/
theorem push (h : Laid own s) (hf : ∃ n, own f = .stack n ∨ own f = .dir n) (hcr3 : f ≠ s.cr3) :
    Laid (Function.update own f .free) (pfaFree f s) := by
  have hused : own f ≠ .none ∧ own f ≠ .free := by
    obtain ⟨n, hn | hn⟩ := hf <;> simp [hn]
  exact h.retag (.inr hf) hcr3 (.inl rfl) (h.stacked.push hused.1 hused.2)

/-- An entry of a table is set to a page. -/
theorem setPte (h : Laid own s) {t j x : Nat} (ht : own t = .table) (hj : j < 1024) (hx : x < 2 ^ 32)
    (hpage : own (frameOf x) = .page) :
    Laid own { s with mem := store32 s.mem (t + 4 * j) x } := by
  have hframe := h.isFrame (f := t) (by simp [ht])
  have hword : ∀ g, (own g).structural = true → g ≠ t → ∀ i < 1024,
      load32 (store32 s.mem (t + 4 * j) x) (g + 4 * i) = load32 s.mem (g + 4 * i) := by
    intro g hg hgt i hi
    have hg' := h.isFrame (f := g) (fun hnone => by simp [hnone, Kind.structural] at hg)
    have := hframe.1
    have := hg'.1
    exact load32_store32_ne (by omega)
  apply h.rewrite
  · exact hword idTable (by rw [h.id]; rfl) (ne_of_own h.id ht (by simp))
  · exact fun d k hd => hword d (by rw [hd]; rfl) (ne_of_own hd ht (by simp))
  · intro t' ht' i hi
    by_cases hsame : t' = t ∧ i = j
    · rw [hsame.1, hsame.2, load32_store32_same _ _ hx]
      exact fun _ => hpage
    · have hother : load32 (store32 s.mem (t + 4 * j) x) (t' + 4 * i) = load32 s.mem (t' + 4 * i) := by
        by_cases htt : t' = t
        · rw [htt]
          exact load32_store32_ne (by omega)
        · exact hword t' (by rw [ht']; rfl) htt i hi
      rw [hother]
      exact h.targets t' ht' i hi

/-- The top of the stack becomes a table of the current directory. -/
theorem addTable (h : Laid own s) {t i : Nat} {m : Nat → UInt8} (hfree : s.free = t :: fs)
    (hi₀ : 1 ≤ i) (hi : i < 1023) (hmem : AgreeOff [s.cr3, t] s.mem m)
    (hentry : pdeAt m s.cr3 i = t ||| 0x07)
    (hothers : ∀ k < 1024, k ≠ i → pdeAt m s.cr3 k = pdeAt s.mem s.cr3 k)
    (hptes : ∀ j < 1024, present (load32 m (t + 4 * j)) = true →
      own (frameOf (load32 m (t + 4 * j))) = .page) :
    Laid (Function.update own t .table) { s with mem := m, free := fs } := by
  obtain ⟨c, hc⟩ := h.cr3
  have ht := h.free_of_mem (f := t) (by simp [hfree])
  have htframe := h.isFrame (f := t) (by simp [ht])
  have hstacked := h.stacked
  rw [hfree] at hstacked
  have haligned : ∀ g ∈ [s.cr3, t], g % 4096 = 0 := by
    simpa using ⟨h.core.dir.1, htframe.1⟩
  have hkeep : ∀ g, own g ≠ .free → Function.update own t .table g = own g := by
    intro g hg
    apply Function.update_of_ne
    rintro rfl
    exact hg ht
  have hword : ∀ g, own g ≠ .none → g ≠ s.cr3 → g ≠ t → ∀ k < 1024,
      load32 m (g + 4 * k) = load32 s.mem (g + 4 * k) := fun g hg hgc hgt k hk =>
    hmem.word haligned (h.isFrame hg).1 (by simp [hgc, hgt]) (by omega)
  have hdir : ∀ d n, Function.update own t .table d = .dir n → own d = .dir n := by
    intro d n hd
    by_cases hdt : d = t
    · rw [hdt, Function.update_self] at hd
      cases hd
    · rwa [Function.update_of_ne hdt] at hd
  have hpde : ∀ d n, own d = .dir n → ∀ k < 1024, (d = s.cr3 → k ≠ i) →
      pdeAt m d k = pdeAt s.mem d k := by
    intro d n hd k hk hki
    by_cases hdc : d = s.cr3
    · rw [hdc]
      exact hothers k hk (hki hdc)
    · exact hword d (by simp [hd]) hdc (ne_of_own hd ht (by simp)) k hk
  have hframe : frameOf (pdeAt m s.cr3 i) = t := by
    rw [hentry, frameOf_or htframe.1 htframe.lt (by decide)]
  -- no entry referred to a free frame
  have hfresh : ∀ n k, own s.cr3 = .dir n → 1 ≤ k → k < 1023 →
      present (pdeAt s.mem s.cr3 k) = true → frameOf (pdeAt s.mem s.cr3 k) ≠ t :=
    fun n k hn hk₀ hk hp => ne_of_own (h.entries _ n hn k hk₀ hk hp) ht (by simp)
  refine ⟨hstacked.pop (by decide), ?_, ?_, ?_, ?_, ?_, ?_, ?_, c, ?_⟩
  · rw [hkeep _ (by simp [h.id]), h.id]
  · intro j hj
    exact (hword idTable (by simp [h.id]) h.idTable_ne (ne_of_own h.id ht (by simp)) j hj).trans
      (h.identity j hj)
  · exact fun d n hd => (hpde d n (hdir d n hd) 0 (by omega) (by omega)).trans
      (h.first d n (hdir d n hd))
  · exact fun d n hd => (hpde d n (hdir d n hd) 1023 (by omega) (by omega)).trans
      (h.self d n (hdir d n hd))
  · intro d n hd k hk₀ hk hp
    have hd' := hdir d n hd
    by_cases hnew : d = s.cr3 ∧ k = i
    · dsimp only
      rw [hnew.1, hnew.2, hframe, Function.update_self]
    · have hold := hpde d n hd' k (by omega) (fun hdc hki => hnew ⟨hdc, hki⟩)
      dsimp only at hp ⊢
      rw [hold] at hp ⊢
      have htable := h.entries d n hd' k hk₀ hk hp
      rw [hkeep _ (by simp [htable]), htable]
  · intro d n hd k k' hk₀ hk hk₀' hk' hp hp' heq
    have hd' := hdir d n hd
    dsimp only at hp hp' heq
    by_cases hnew : d = s.cr3 ∧ (k = i ∨ k' = i)
    · obtain ⟨rfl, hki⟩ := hnew
      by_contra hne
      rcases hki with rfl | rfl
      · rw [hframe, hothers k' (by omega) (Ne.symm hne)] at heq
        rw [hothers k' (by omega) (Ne.symm hne)] at hp'
        exact hfresh n k' hd' hk₀' hk' hp' heq.symm
      · rw [hframe, hothers k (by omega) hne] at heq
        rw [hothers k (by omega) hne] at hp
        exact hfresh n k hd' hk₀ hk hp heq
    · have hold := hpde d n hd' k (by omega) (fun hdc hki => hnew ⟨hdc, .inl hki⟩)
      have hold' := hpde d n hd' k' (by omega) (fun hdc hki => hnew ⟨hdc, .inr hki⟩)
      rw [hold] at hp heq
      rw [hold'] at hp' heq
      exact h.distinct d n hd' k k' hk₀ hk hk₀' hk' hp hp' heq
  · intro t' ht' j hj hp
    dsimp only at hp ⊢
    by_cases htt : t' = t
    · rw [htt] at hp ⊢
      have hpage := hptes j hj hp
      rw [hkeep _ (by simp [hpage]), hpage]
    · rw [Function.update_of_ne htt] at ht'
      have hold := hword t' (by simp [ht']) (ne_of_own ht' hc (by simp)) htt j hj
      rw [hold] at hp ⊢
      have hpage := h.targets t' ht' j hj hp
      rw [hkeep _ (by simp [hpage]), hpage]
  · dsimp only
    rw [hkeep _ (by simp [hc]), hc]

end Laid

end SRos.Paging
