import SRos.Elf.Loading

/-!
# Loading the segments

What the loops of the loader do to the image. A segment clears all pages that hold bytes of its
file part, and then stores its bytes; the rest of the segment is zeros, for which no page is
allocated that is there already.
-/

namespace SRos.Elf

open Bytes Fs Paging Loop

/-- The image after `n` bytes have been stored from `a` on. -/
def putBytes (a n : Nat) (g : Nat → UInt8) (img : Nat → Option UInt8) : Nat → Option UInt8 :=
  fun v => if a ≤ v ∧ v < a + n then some (g (v - a)) else img v

/-- The page of `v` holds one of the `n` bytes from `a` on. -/
def onPages (a n v : Nat) : Prop := 0 < n ∧ a / 4096 ≤ v / 4096 ∧ v / 4096 ≤ (a + n - 1) / 4096

instance (a n v : Nat) : Decidable (onPages a n v) := inferInstanceAs (Decidable (_ ∧ _ ∧ _))

/-- The image after the file part of a segment, which has the byte `src v` at `v`. -/
def fileImg (a n : Nat) (src : Nat → UInt8) (img : Nat → Option UInt8) : Nat → Option UInt8 :=
  fun v => if a ≤ v ∧ v < a + n then some (src v) else if onPages a n v then none else img v

/-- The file has the byte `src v` for the address `v`, in the `n` bytes from `a` on. -/
def Reads (fs : FsState) (ino off a n : Nat) (src : Nat → UInt8) : Prop :=
  ∀ k m, k + m ≤ n → ∀ j < m, (readFileAt fs ino zeros m (u32 (off + k))).2 j = src (a + k + j)

theorem and_0xFFF (n : Nat) : n &&& 0xFFF = n % 4096 := Nat.and_two_pow_sub_one_eq_mod n 12

section Loops

variable {own₀ own : Nat → Kind} {s₀ s s' : Vm} {img : Nat → Option UInt8} {fresh : Nat → Option Nat}
  {fs : FsState} {ino a n : Nat}

/-- Bytes are stored to one page. -/
theorem Loading.storeBytes (h : Loading own₀ s₀ img fresh own s) {p o : Nat} {g : Nat → UInt8}
    (hp : UserPage p) (hon : o + n ≤ 4096) (hg : fresh p = none → ∀ i < n, g i = 0)
    (hs : storeBytes (p * 4096 + o) n g s = some s') :
    Loading own₀ s₀ (putBytes (p * 4096 + o) n g img) fresh own s' := by
  refine foldlM_range_keeps (fun k t => Loading own₀ s₀ (putBytes (p * 4096 + o) k g img) fresh own t)
    hs ?_ ?_
  · have hnone : putBytes (p * 4096 + o) 0 g img = img := by
      funext v
      exact if_neg (by omega)
    rwa [hnone]
  · intro k t t' hk ht hwrite
    rw [Nat.add_assoc] at hwrite
    have hnext := ht.store hp (by omega) (fun hold => hg hold k hk) hwrite
    have heq : Function.update (putBytes (p * 4096 + o) k g img) (p * 4096 + (o + k)) (some (g k)) =
        putBytes (p * 4096 + o) (k + 1) g img := by
      funext v
      by_cases hv : v = p * 4096 + (o + k)
      · rw [hv, Function.update_self, putBytes, if_pos (by omega)]
        congr 2
        omega
      · rw [Function.update_of_ne hv, putBytes, putBytes]
        exact if_congr (by omega) rfl rfl
    rwa [heq] at hnext

/-- One page of the file part, and the rest of it. -/
theorem fileImg_step {m : Nat} {g src : Nat → UInt8} (hm : m = min (4096 - a % 4096) n) (hn : 0 < n)
    (hg : ∀ j < m, g j = src (a + j)) :
    fileImg (a + m) (n - m) src (putBytes a m g (clearPage (a / 4096) img)) = fileImg a n src img := by
  funext v
  unfold fileImg putBytes clearPage
  by_cases hin : a ≤ v ∧ v < a + n
  · rw [if_pos hin]
    by_cases hrest : a + m ≤ v ∧ v < a + m + (n - m)
    · rw [if_pos hrest]
    · have hlater : ¬ onPages (a + m) (n - m) v := by
        unfold onPages
        omega
      rw [if_neg hrest, if_neg hlater, if_pos (by omega), hg _ (by omega)]
      congr 2
      omega
  · rw [if_neg hin, if_neg (show ¬ (a + m ≤ v ∧ v < a + m + (n - m)) by omega)]
    by_cases hlater : onPages (a + m) (n - m) v
    · have hpages : onPages a n v := by
        unfold onPages at *
        omega
      rw [if_pos hlater, if_pos hpages]
    · rw [if_neg hlater, if_neg (by omega)]
      have hpages : v / 4096 = a / 4096 ↔ onPages a n v := by
        unfold onPages at *
        omega
      exact if_congr hpages rfl rfl

theorem isSome_update {p : Nat} (q f : Nat) (hp : (fresh p).isSome) :
    (Function.update fresh q (some f) p).isSome := by
  by_cases hpq : p = q
  · rw [hpq, Function.update_self]
    rfl
  · rwa [Function.update_of_ne hpq]

theorem u32_add_u32 (x y : Nat) : u32 (u32 x + y) = u32 (x + y) := by
  unfold u32
  exact Nat.mod_add_mod x (2 ^ 32) y

theorem frameOf_page {a : Nat} (ha : a < 2 ^ 32) : frameOf a = a / 4096 * 4096 := frameOf_eq ha

/-- What the loop over the file part of a segment leaves. -/
structure FileLoaded (own₀ : Nat → Kind) (s₀ : Vm) (img : Nat → Option UInt8)
    (fresh : Nat → Option Nat) (fs : FsState) (ino off a n : Nat) (r : Int)
    (img' : Nat → Option UInt8) (fresh' : Nat → Option Nat) (own' : Nat → Kind) (s' : Vm) : Prop where
  loading : Loading own₀ s₀ img' fresh' own' s'
  mono : ∀ p, (fresh p).isSome → (fresh' p).isSome
  result : r = 0 ∨ r = -1
  pages : r = 0 → ∀ v, onPages a n v → (fresh' (v / 4096)).isSome
  image : r = 0 → ∀ src, Reads fs ino off a n src → img' = fileImg a n src img

theorem Loading.loadFile {fuel off : Nat} {r : Int} (h : Loading own₀ s₀ img fresh own s)
    (ha : 0x400000 ≤ a) (han : a + n ≤ 0xE0000000) (hoff : off < 2 ^ 32) (hfuel : n ≤ fuel)
    (hs : loadFile fs ino fuel a off n s = some (r, s')) :
    ∃ img' fresh' own', FileLoaded own₀ s₀ img fresh fs ino off a n r img' fresh' own' s' := by
  induction fuel generalizing img fresh own s a off n with
  | zero =>
      obtain ⟨rfl, rfl⟩ : 0 = r ∧ s = s' := by simpa [Elf.loadFile] using hs
      obtain rfl : n = 0 := by omega
      refine ⟨img, fresh, own, h, fun _ hp => hp, .inl rfl, fun _ v hv => by unfold onPages at hv; omega,
        fun _ src _ => ?_⟩
      funext v
      rw [fileImg, if_neg (by omega), if_neg (by unfold onPages; omega)]
  | succ fuel ih =>
      unfold Elf.loadFile at hs
      by_cases hn : n = 0
      · rw [if_pos hn] at hs
        obtain ⟨rfl, rfl⟩ : 0 = r ∧ s = s' := by simpa using hs
        refine ⟨img, fresh, own, h, fun _ hp => hp, .inl rfl,
          fun _ v hv => by unfold onPages at hv; omega, fun _ src _ => ?_⟩
        funext v
        rw [fileImg, if_neg (by omega), if_neg (by unfold onPages; omega)]
      · rw [if_neg hn] at hs
        have hp : UserPage (a / 4096) := by unfold UserPage; omega
        simp only [Option.bind_eq_bind, and_0xFFF, frameOf_page (show a < 2 ^ 32 by omega)] at hs
        generalize hm : min (4096 - a % 4096) n = m at hs
        obtain ⟨s₁, hs₁, hs⟩ := Option.bind_eq_some_iff.mp hs
        obtain ⟨f, own₁, h₁⟩ := h.alloc hp hs₁
        have hmono₁ := fun p => @isSome_update fresh p (a / 4096) f
        split at hs
        · obtain ⟨rfl, rfl⟩ : -1 = r ∧ s₁ = s' := by simpa using hs
          exact ⟨_, _, own₁, h₁, hmono₁, .inr rfl, by simp, by simp⟩
        · obtain ⟨s₂, hs₂, hs⟩ := Option.bind_eq_some_iff.mp hs
          have h₂ := h₁.storeBytes hp (by omega) (by simp) hs₂
          rw [u32_of_lt (show a + m < 2 ^ 32 by omega)] at hs
          obtain ⟨img', fresh', own', hrest⟩ := ih h₂ (by omega) (by omega) (u32_lt _) (by omega) hs
          have haddr : a / 4096 * 4096 + a % 4096 = a := by omega
          refine ⟨img', fresh', own', hrest.loading, fun p hfp => hrest.mono p (hmono₁ p hfp),
            hrest.result, ?_, ?_⟩
          · intro hr v hv
            by_cases hpage : v / 4096 = a / 4096
            · rw [hpage]
              exact hrest.mono _ (by simp)
            · exact hrest.pages hr v (by unfold onPages at *; omega)
          · intro hr src hsrc
            have hreads : Reads fs ino (u32 (off + m)) (a + m) (n - m) src := by
              intro k l hkl j hj
              rw [u32_add_u32, Nat.add_assoc off]
              have hbyte := hsrc (m + k) l (by omega) j hj
              rwa [← Nat.add_assoc a] at hbyte
            rw [hrest.image hr src hreads, haddr]
            apply fileImg_step hm.symm (by omega)
            intro j hj
            have hbyte := hsrc 0 m (by omega) j hj
            rwa [Nat.add_zero, Nat.add_zero, u32_of_lt hoff] at hbyte

/-- The test for a missing page. -/
theorem pageMissing_eq (h : Laid own s) {p o : Nat} (hp : UserPage p) (ho : o < 4096) :
    pageMissing (p * 4096 + o) s = some (!mapped s.mem s.cr3 (p / 1024) (p % 1024)) := by
  have hcore := h.core
  have hj : p % 1024 < 1024 := Nat.mod_lt p (by decide)
  obtain ⟨hpd, hpt, -⟩ := @vaddr_split (p / 1024) (p % 1024) o hj ho
  have hread : s.read32 (s.cr3 + 4 * (p / 1024)) = some (pdeAt s.mem s.cr3 (p / 1024)) :=
    hcore.readLow hcore.dir (by have := hp.entry; omega)
  rw [vaddr_page, vaddr]
  unfold pageMissing mapped
  simp only [hpd, hpt, hread, Option.bind_eq_bind, Option.bind_some]
  cases hpde : present (pdeAt s.mem s.cr3 (p / 1024)) with
  | false => simp
  | true =>
      have hwindow := hcore.window (o := 4 * (p % 1024)) (by have := hp.entry; omega) (by omega) hpde
      simp only [Vm.read32, hwindow, Option.map_some, Option.bind_some]
      rfl

/-- Nothing has been stored to a page that is not mapped. -/
theorem Loading.clear_unmapped (h : Loading own₀ s₀ img fresh own s) {p : Nat} (hp : UserPage p)
    (hmissing : mapped s.mem s.cr3 (p / 1024) (p % 1024) = false) : clearPage p img = img := by
  have hnone : ∀ o < 4096, s.translate (p * 4096 + o) = none := by
    intro o ho
    rw [vaddr_page, vaddr, translate_split h.laid.core.cr3_frame (Nat.mod_lt p (by decide)) ho, hmissing]
    rfl
  have hold : fresh p = none := by
    cases hfp : fresh p with
    | none => rfl
    | some f =>
        have hmaps := h.maps p f hfp 0 (by omega)
        rw [hnone 0 (by omega)] at hmaps
        cases hmaps
  funext v
  by_cases hv : v / 4096 = p
  · rw [clearPage, if_pos hv]
    cases hb : img v with
    | none => rfl
    | some b =>
        have hsplit : v = p * 4096 + v % 4096 := by omega
        rw [hsplit] at hb
        have hread := (h.zeros p hp hold (v % 4096) (by omega) b hb).2
        rw [Vm.read8, hnone _ (by omega)] at hread
        cases hread
  · exact if_neg hv

theorem putBytes_zeros_step {m : Nat} (hm : m ≤ n) :
    putBytes (a + m) (n - m) (fun _ => 0) (putBytes a m (fun _ => 0) img) =
      putBytes a n (fun _ => 0) img := by
  funext v
  unfold putBytes
  by_cases hin : a ≤ v ∧ v < a + n
  · rw [if_pos hin]
    by_cases hrest : a + m ≤ v ∧ v < a + m + (n - m)
    · rw [if_pos hrest]
    · rw [if_neg hrest, if_pos (by omega)]
  · rw [if_neg hin, if_neg (by omega), if_neg (by omega)]

theorem Loading.loadBss {fuel : Nat} (h : Loading own₀ s₀ img fresh own s) (ha : 0x400000 ≤ a)
    (han : a + n ≤ 0xE0000000) (hfuel : n ≤ fuel) (hs : loadBss fuel a n s = some s') :
    ∃ fresh' own', Loading own₀ s₀ (putBytes a n (fun _ => 0) img) fresh' own' s' ∧
      ∀ p, (fresh p).isSome → (fresh' p).isSome := by
  induction fuel generalizing img fresh own s a n with
  | zero =>
      obtain rfl : s = s' := by simpa [Elf.loadBss] using hs
      obtain rfl : n = 0 := by omega
      have hnone : putBytes a 0 (fun _ => 0) img = img := by
        funext v
        exact if_neg (by omega)
      exact ⟨fresh, own, by rwa [hnone], fun _ hp => hp⟩
  | succ fuel ih =>
      unfold Elf.loadBss at hs
      by_cases hn : n = 0
      · rw [if_pos hn] at hs
        obtain rfl : s = s' := by simpa using hs
        have hnone : putBytes a n (fun _ => 0) img = img := by
          funext v
          exact if_neg (by omega)
        exact ⟨fresh, own, by rwa [hnone], fun _ hp => hp⟩
      · rw [if_neg hn] at hs
        have hp : UserPage (a / 4096) := by unfold UserPage; omega
        have haddr : a / 4096 * 4096 + a % 4096 = a := by omega
        have hmissing := pageMissing_eq (o := a % 4096) h.laid hp (by omega)
        rw [haddr] at hmissing
        simp only [Option.bind_eq_bind, and_0xFFF, frameOf_page (show a < 2 ^ 32 by omega), hmissing,
          Option.bind_some] at hs
        generalize hm : min (4096 - a % 4096) n = m at hs
        -- the page is there, or it is allocated now
        obtain ⟨fresh₁, own₁, s₁, hs, h₁, hmono₁⟩ : ∃ fresh₁ own₁ s₁,
            (Elf.storeBytes (a / 4096 * 4096 + a % 4096) m (fun _ => 0) s₁).bind
              (fun s => Elf.loadBss fuel (u32 (a + m)) (n - m) s) = some s' ∧
            Loading own₀ s₀ img fresh₁ own₁ s₁ ∧ ∀ p, (fresh p).isSome → (fresh₁ p).isSome := by
          cases hmapped : mapped s.mem s.cr3 (a / 4096 / 1024) (a / 4096 % 1024) with
          | true =>
              rw [hmapped] at hs
              exact ⟨fresh, own, s, by simpa using hs, h, fun _ hp => hp⟩
          | false =>
              rw [hmapped] at hs
              simp only [Bool.not_false, if_true] at hs
              obtain ⟨s₁, hs₁, hs⟩ := Option.bind_eq_some_iff.mp hs
              obtain ⟨f, own₁, h₁⟩ := h.alloc hp hs₁
              rw [h.clear_unmapped hp hmapped] at h₁
              exact ⟨_, own₁, s₁, hs, h₁, fun p => isSome_update (a / 4096) f⟩
        obtain ⟨s₂, hs₂, hs⟩ := Option.bind_eq_some_iff.mp hs
        have h₂ := h₁.storeBytes hp (by omega) (by simp) hs₂
        rw [u32_of_lt (show a + m < 2 ^ 32 by omega)] at hs
        obtain ⟨fresh', own', hrest, hmono⟩ := ih h₂ (by omega) (by omega) (by omega) hs
        rw [haddr, putBytes_zeros_step (by omega)] at hrest
        exact ⟨fresh', own', hrest, fun p hfp => hmono p (hmono₁ p hfp)⟩

/-- The bytes of the segment are in the user space. -/
structure InUser (ph : Phdr) : Prop where
  sizes : ph.pFilesz ≤ ph.pMemsz
  low : 0 < ph.pMemsz → 0x400000 ≤ ph.pVaddr
  high : 0 < ph.pMemsz → ph.pVaddr + ph.pMemsz ≤ 0xE0000000

/-- The image after a segment, whose file part has the byte `src v` at `v`. -/
def segImg (ph : Phdr) (src : Nat → UInt8) (img : Nat → Option UInt8) : Nat → Option UInt8 :=
  putBytes (ph.pVaddr + ph.pFilesz) (ph.pMemsz - ph.pFilesz) (fun _ => 0)
    (fileImg ph.pVaddr ph.pFilesz src img)

/-- Nothing is done for a segment without bytes. -/
theorem loadSegment_empty (virtAddr offset : Nat) (s : Vm) :
    loadSegment fs ino virtAddr offset 0 0 s = some (0, s) := rfl

theorem segImg_empty {ph : Phdr} (hfile : ph.pFilesz = 0) (hmem : ph.pMemsz = 0) (src : Nat → UInt8) :
    segImg ph src img = img := by
  funext v
  have hpages : ¬ onPages ph.pVaddr 0 v := by
    unfold onPages
    omega
  unfold segImg putBytes fileImg
  rw [hfile, hmem, if_neg (by omega), if_neg (by omega), if_neg hpages]

theorem Loading.loadSegment {ph : Phdr} {r : Int} (h : Loading own₀ s₀ img fresh own s) (hph : InUser ph)
    (hoff : ph.pOffset < 2 ^ 32)
    (hs : loadSegment fs ino ph.pVaddr ph.pOffset ph.pFilesz ph.pMemsz s = some (r, s')) :
    ∃ img' fresh' own', Loading own₀ s₀ img' fresh' own' s' ∧
      (∀ p, (fresh p).isSome → (fresh' p).isSome) ∧ (r = 0 ∨ r = -1) ∧
      (r = 0 → ∀ v, onPages ph.pVaddr ph.pFilesz v → (fresh' (v / 4096)).isSome) ∧
      (r = 0 → ∀ src, Reads fs ino ph.pOffset ph.pVaddr ph.pFilesz src → img' = segImg ph src img) := by
  have hsizes := hph.sizes
  by_cases hempty : ph.pMemsz = 0
  · have hnofile : ph.pFilesz = 0 := by omega
    rw [hempty, hnofile, loadSegment_empty] at hs
    obtain ⟨rfl, rfl⟩ : 0 = r ∧ s = s' := by simpa using hs
    refine ⟨img, fresh, own, h, fun _ hp => hp, .inl rfl, fun _ v hv => ?_,
      fun _ src _ => (segImg_empty hnofile hempty src).symm⟩
    unfold onPages at hv
    omega
  have hlow := hph.low (by omega)
  have hhigh := hph.high (by omega)
  unfold Elf.loadSegment at hs
  simp only [Option.bind_eq_bind] at hs
  obtain ⟨⟨r₁, s₁⟩, hs₁, hs⟩ := Option.bind_eq_some_iff.mp hs
  obtain ⟨img₁, fresh₁, own₁, hfile⟩ := h.loadFile hlow (by omega) hoff (le_refl _) hs₁
  dsimp only at hs
  rcases hfile.result with rfl | rfl
  · rw [if_neg (by decide), u32_of_lt (by omega), u32Sub_of_le (by omega) hsizes] at hs
    obtain ⟨s₂, hs₂, hs⟩ := Option.bind_eq_some_iff.mp hs
    obtain ⟨rfl, rfl⟩ : 0 = r ∧ s₂ = s' := by simpa using hs
    obtain ⟨fresh', own', hbss, hmono⟩ :=
      hfile.loading.loadBss (by omega) (by omega) (le_refl _) hs₂
    refine ⟨_, fresh', own', hbss, fun p hp => hmono p (hfile.mono p hp), .inl rfl,
      fun _ v hv => hmono _ (hfile.pages rfl v hv), fun _ src hsrc => ?_⟩
    rw [segImg, hfile.image rfl src hsrc]
  · rw [if_pos (by decide)] at hs
    obtain ⟨rfl, rfl⟩ : -1 = r ∧ s₁ = s' := by simpa using hs
    exact ⟨img₁, fresh₁, own₁, hfile.loading, hfile.mono, .inr rfl, by simp, by simp⟩

/-- The program header with index `i`, as the loader reads it. -/
def phdrAt (fs : FsState) (ino phoff i : Nat) : Phdr :=
  Phdr.decode (readFileAt fs ino uninit sizeofPhdr (u32 (phoff + i * sizeofPhdr))).2

/-- The file has the program header with index `i`. -/
def hasPhdr (fs : FsState) (ino phoff i : Nat) : Prop :=
  (sizeofPhdr : Int) ≤ (readFileAt fs ino uninit sizeofPhdr (u32 (phoff + i * sizeofPhdr))).1

/-- The segments to load among the program headers with indices `is`. -/
def segmentsAt (fs : FsState) (ino phoff : Nat) (is : List Nat) : List Phdr :=
  (is.map (phdrAt fs ino phoff)).filter fun ph => ph.pType == ptLoad

/-- The image after a list of segments. -/
def imageOf (src : Phdr → Nat → UInt8) (segs : List Phdr) (img : Nat → Option UInt8) :
    Nat → Option UInt8 :=
  segs.foldl (fun img ph => segImg ph (src ph) img) img

theorem Loading.loadSegments {phoff : Nat} {is : List Nat} {r : Int}
    (h : Loading own₀ s₀ img fresh own s)
    (hseg : ∀ i ∈ is, hasPhdr fs ino phoff i → (phdrAt fs ino phoff i).pType = ptLoad →
      InUser (phdrAt fs ino phoff i))
    (hs : loadSegments fs ino phoff is s = some (r, s')) :
    ∃ img' fresh' own', Loading own₀ s₀ img' fresh' own' s' ∧
      (∀ p, (fresh p).isSome → (fresh' p).isSome) ∧ (r = 0 ∨ r = -1) ∧
      (r = 0 → ∀ i ∈ is, hasPhdr fs ino phoff i) ∧
      (r = 0 → ∀ ph ∈ segmentsAt fs ino phoff is, ∀ v, onPages ph.pVaddr ph.pFilesz v →
        (fresh' (v / 4096)).isSome) ∧
      (r = 0 → ∀ src, (∀ ph ∈ segmentsAt fs ino phoff is,
        Reads fs ino ph.pOffset ph.pVaddr ph.pFilesz (src ph)) →
        img' = imageOf src (segmentsAt fs ino phoff is) img) := by
  induction is generalizing img fresh own s with
  | nil =>
      obtain ⟨rfl, rfl⟩ : 0 = r ∧ s = s' := by simpa [Elf.loadSegments] using hs
      exact ⟨img, fresh, own, h, fun _ hp => hp, .inl rfl, by simp, by simp [segmentsAt], fun _ _ _ => rfl⟩
  | cons i is ih =>
      have hseg' := fun j hj => hseg j (List.mem_cons_of_mem i hj)
      unfold Elf.loadSegments at hs
      dsimp only at hs
      split at hs
      · obtain ⟨rfl, rfl⟩ : -1 = r ∧ s = s' := by simpa using hs
        exact ⟨img, fresh, own, h, fun _ hp => hp, .inr rfl, by simp, by simp, by simp⟩
      · next hread =>
          have hhas : hasPhdr fs ino phoff i := by
            unfold hasPhdr
            omega
          change (if (phdrAt fs ino phoff i).pType ≠ ptLoad then _ else
            Option.bind (Elf.loadSegment fs ino (phdrAt fs ino phoff i).pVaddr
              (phdrAt fs ino phoff i).pOffset (phdrAt fs ino phoff i).pFilesz
              (phdrAt fs ino phoff i).pMemsz s) _) = _ at hs
          by_cases htype : (phdrAt fs ino phoff i).pType = ptLoad
          · have hsegs : segmentsAt fs ino phoff (i :: is) =
                phdrAt fs ino phoff i :: segmentsAt fs ino phoff is := by
              simp [segmentsAt, htype]
            rw [if_neg (by simpa using htype)] at hs
            obtain ⟨⟨r₁, s₁⟩, hs₁, hs⟩ := Option.bind_eq_some_iff.mp hs
            obtain ⟨img₁, fresh₁, own₁, h₁, hmono₁, hr₁, hpages₁, himage₁⟩ :=
              h.loadSegment (hseg i (by simp) hhas htype) (load32_lt _ _) hs₁
            dsimp only at hs
            rcases hr₁ with rfl | rfl
            · rw [if_neg (by decide)] at hs
              obtain ⟨img', fresh', own', h', hmono', hr, hhas', hpages', himage'⟩ := ih h₁ hseg' hs
              refine ⟨img', fresh', own', h', fun p hp => hmono' p (hmono₁ p hp), hr, ?_, ?_, ?_⟩
              · intro hr₀ j hj
                rcases List.mem_cons.mp hj with rfl | hj
                · exact hhas
                · exact hhas' hr₀ j hj
              · intro hr₀ ph hph v hv
                rw [hsegs] at hph
                rcases List.mem_cons.mp hph with rfl | hph
                · exact hmono' _ (hpages₁ rfl v hv)
                · exact hpages' hr₀ ph hph v hv
              · intro hr₀ src hsrc
                rw [hsegs] at hsrc ⊢
                have hfirst := himage₁ rfl (src _) (hsrc _ (by simp))
                have hrest := himage' hr₀ src fun ph hph => hsrc ph (List.mem_cons_of_mem _ hph)
                rw [hrest, hfirst]
                rfl
            · rw [if_pos (by decide)] at hs
              obtain ⟨rfl, rfl⟩ : -1 = r ∧ s₁ = s' := by simpa using hs
              exact ⟨img₁, fresh₁, own₁, h₁, hmono₁, .inr rfl, by simp, by simp, by simp⟩
          · have hsegs : segmentsAt fs ino phoff (i :: is) = segmentsAt fs ino phoff is := by
              simp [segmentsAt, htype]
            rw [if_pos (by simpa using htype)] at hs
            obtain ⟨img', fresh', own', h', hmono', hr, hhas', hpages', himage'⟩ := ih h hseg' hs
            rw [hsegs]
            refine ⟨img', fresh', own', h', hmono', hr, ?_, hpages', himage'⟩
            intro hr₀ j hj
            rcases List.mem_cons.mp hj with rfl | hj
            · exact hhas
            · exact hhas' hr₀ j hj

end Loops

end SRos.Elf
