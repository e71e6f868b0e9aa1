import SRos.Elf.Ranges
import SRos.Paging.Guard

/-!
# What an executable can do to the kernel

The loader maps and writes wherever the program headers say. The kernel's part of the address space
is safe from a file if and only if all bytes of its segments are above the first 4 MB and below the
window of the self-map.
-/

namespace SRos.Elf

open Bytes Fs Paging Elf.Accesses

/-- The address is above the first 4 MB and below the window. -/
def AboveKernel (v : Nat) : Prop := 0x400000 ≤ v ∧ v < 0xFFC00000

/-! ## Computations that leave the kernel alone -/

section Keeps

variable {α β : Type} {s t : Vm} {m : Loader α} {f : α → Loader β} {out : α → Vm} {out' : β → Vm}
  {fs : FsState} {ino fuel a off n virtAddr filesz memsz : Nat}

/-- If the accesses of the computation are above the kernel, so is all that it changes. -/
def Keeps (s : Vm) (m : Loader α) (out : α → Vm) : Prop :=
  Guarded s → m.run.Within (fun e => AboveKernel e.addr) →
    ∀ a, m.run.value = some a → Guarded (out a) ∧ KernelKept s (out a)

theorem Keeps.pure {a : α} (h : out a = s) : Keeps s (pure a) out := by
  intro hs _ b hb
  obtain rfl := Option.some.inj hb
  rw [h]
  exact ⟨hs, .refl s⟩

theorem Keeps.bind (h : Keeps s m out) (hf : ∀ a, Keeps (out a) (f a) out') :
    Keeps s (m >>= f) out' := by
  intro hs hwithin b hb
  rw [Traced.value_run_bind] at hb
  obtain ⟨a, ha, hb⟩ := Option.bind_eq_some_iff.mp hb
  obtain ⟨hguarded, hkept⟩ :=
    h hs (fun e he => hwithin e (Traced.mem_trace_run_bind.mpr (.inl he))) a ha
  obtain ⟨hguarded', hkept'⟩ := hf a hguarded
    (fun e he => hwithin e (Traced.mem_trace_run_bind.mpr (.inr ⟨a, ha, he⟩))) b hb
  exact ⟨hguarded', hkept.trans hkept'⟩

theorem Keeps.foldlM {xs : List β} {g : Vm → β → Loader Vm} (h : ∀ s x, Keeps s (g s x) id) (s : Vm) :
    Keeps s (xs.foldlM g s) id := by
  induction xs generalizing s with
  | nil => exact .pure rfl
  | cons x xs ih =>
      rw [List.foldlM_cons]
      exact .bind (h s x) ih

theorem keeps_allocPage (v : Nat) (s : Vm) : Keeps s (allocPage v s) id := by
  intro hs hwithin s' hs'
  obtain ⟨hlow, hhigh⟩ := hwithin (.map v) (List.mem_singleton_self _)
  obtain ⟨hguarded, hkept, -⟩ := hs.allocPage hlow hhigh hs'
  exact ⟨hguarded, hkept⟩

theorem keeps_write8 (v : Nat) (b : UInt8) (s : Vm) : Keeps s (write8 v b s) id := by
  intro hs hwithin s' hs'
  obtain ⟨hlow, hhigh⟩ := hwithin (.store v) (List.mem_singleton_self _)
  obtain ⟨hguarded, hkept, -⟩ := hs.write8 hlow hhigh hs'
  exact ⟨hguarded, hkept⟩

theorem keeps_attempt (o : Option α) (s : Vm) : Keeps s (Traced.attempt o) fun _ => s :=
  fun hs _ _ _ => ⟨hs, .refl s⟩

theorem keeps_storeBytes (v n : Nat) (g : Nat → UInt8) (s : Vm) :
    Keeps s (Accesses.storeBytes v n g s) id :=
  .foldlM (fun s _ => keeps_write8 _ _ s) s

theorem keeps_loadFile (fs : FsState) (ino fuel a off n : Nat) (s : Vm) :
    Keeps s (Accesses.loadFile fs ino fuel a off n s) Prod.snd := by
  induction fuel generalizing a off n s with
  | zero => exact .pure rfl
  | succ fuel ih =>
      unfold Accesses.loadFile
      split
      · exact .pure rfl
      · refine .bind (keeps_allocPage _ s) fun s => ?_
        dsimp only
        split
        · exact .pure rfl
        · exact .bind (keeps_storeBytes _ _ _ s) fun s => ih _ _ _ s

theorem keeps_loadBss (fuel a n : Nat) (s : Vm) : Keeps s (Accesses.loadBss fuel a n s) id := by
  induction fuel generalizing a n s with
  | zero => exact .pure rfl
  | succ fuel ih =>
      unfold Accesses.loadBss
      split
      · exact .pure rfl
      · refine .bind (show Keeps s _ id from .bind (keeps_attempt _ s) fun missing => ?_) fun s =>
          .bind (keeps_storeBytes _ _ _ s) fun s => ih _ _ s
        split
        · exact keeps_allocPage _ s
        · exact .pure rfl

theorem keeps_loadSegment (fs : FsState) (ino fuel virtAddr off filesz memsz : Nat) (s : Vm) :
    Keeps s (Accesses.loadSegment fs ino fuel virtAddr off filesz memsz s) Prod.snd := by
  refine .bind (keeps_loadFile fs ino fuel virtAddr off filesz s) fun ⟨r, s⟩ => ?_
  dsimp only
  split
  · exact .pure rfl
  · exact .bind (keeps_loadBss _ _ _ s) fun s => .pure rfl

theorem keeps_loadSegments (fs : FsState) (ino fuel phoff : Nat) (is : List Nat) (s : Vm) :
    Keeps s (Accesses.loadSegments fs ino fuel phoff is s) Prod.snd := by
  induction is generalizing s with
  | nil => exact .pure rfl
  | cons i is ih =>
      unfold Accesses.loadSegments
      dsimp only
      split
      · exact .pure rfl
      · split
        · exact ih s
        · refine .bind (keeps_loadSegment _ _ _ _ _ _ _ s) fun x => ?_
          obtain ⟨r, s⟩ := x
          dsimp only
          split
          · exact .pure rfl
          · exact ih s

theorem keeps_elfLoadAndExec (fs : FsState) (fuel : Nat) (path : CStr) (regs : Registers) (s : Vm) :
    Keeps s (Accesses.elfLoadAndExec fs fuel path regs s) fun x => x.2.2 := by
  unfold Accesses.elfLoadAndExec
  split
  · exact .pure rfl
  · dsimp only
    split
    · exact .pure rfl
    · split
      · exact .pure rfl
      · refine .bind (keeps_loadSegments _ _ _ _ _ s) fun ⟨r, s⟩ => ?_
        dsimp only
        split
        · exact .pure rfl
        · refine .bind (show Keeps s _ id from .foldlM (fun s i => keeps_allocPage _ s) s) fun s =>
            .pure rfl

end Keeps

/-! ## The segments of a call -/

/-- The headers in front of the first one that cannot be read. -/
def headersRead (fs : FsState) (ino phoff : Nat) (is : List Nat) : List Nat :=
  is.takeWhile fun i => decide (hasPhdr fs ino phoff i)

/-- The segments that a call for this path comes to. -/
def segmentsReached (fs : FsState) (path : CStr) : List Phdr :=
  match lookupPath fs path with
  | none => []
  | some ino =>
      if (readFileAt fs ino uninit sizeofEhdr 0).1 < sizeofEhdr then []
      else if !elfCheckFile (ehdrAt fs ino) then []
      else segmentsAt fs ino (ehdrAt fs ino).ePhoff
        (headersRead fs ino (ehdrAt fs ino).ePhoff (List.range (ehdrAt fs ino).ePhnum))

/-- The loops go over the byte for this segment. -/
def Phdr.Covers (ph : Phdr) (x : Nat) : Prop := Accesses.Covers ph.pVaddr ph.pFilesz ph.pMemsz x

section Trace

variable {fs : FsState} {ino fuel phoff i : Nat} {is : List Nat} {s s' : Vm} {r : Int} {path : CStr}
  {regs regs' : Registers} {x : Nat}

theorem segmentsAt_read (hhas : hasPhdr fs ino phoff i) :
    segmentsAt fs ino phoff (headersRead fs ino phoff (i :: is)) =
      if (phdrAt fs ino phoff i).pType = ptLoad then
        phdrAt fs ino phoff i :: segmentsAt fs ino phoff (headersRead fs ino phoff is)
      else segmentsAt fs ino phoff (headersRead fs ino phoff is) := by
  unfold headersRead segmentsAt
  rw [List.takeWhile_cons, decide_eq_true hhas, if_pos rfl, List.map_cons, List.filter_cons]
  exact if_congr beq_iff_eq rfl rfl

theorem segmentsAt_unread (hhas : ¬ hasPhdr fs ino phoff i) :
    segmentsAt fs ino phoff (headersRead fs ino phoff (i :: is)) = [] := by
  unfold headersRead segmentsAt
  rw [List.takeWhile_cons, decide_eq_false hhas]
  rfl

theorem phdrAt_lt (fs : FsState) (ino phoff i : Nat) :
    (phdrAt fs ino phoff i).pVaddr < 2 ^ 32 ∧ (phdrAt fs ino phoff i).pFilesz < 2 ^ 32 ∧
      (phdrAt fs ino phoff i).pMemsz < 2 ^ 32 :=
  ⟨load32_lt _ _, load32_lt _ _, load32_lt _ _⟩

theorem loadSegments_unread (hhas : ¬ hasPhdr fs ino phoff i) :
    Accesses.loadSegments fs ino fuel phoff (i :: is) s = pure (-1, s) :=
  if_pos (Int.not_le.mp hhas)

theorem loadSegments_skip (hhas : hasPhdr fs ino phoff i)
    (htype : (phdrAt fs ino phoff i).pType ≠ ptLoad) :
    Accesses.loadSegments fs ino fuel phoff (i :: is) s =
      Accesses.loadSegments fs ino fuel phoff is s :=
  (if_neg (Int.not_lt.mpr hhas)).trans (if_pos htype)

theorem loadSegments_load (hhas : hasPhdr fs ino phoff i)
    (htype : (phdrAt fs ino phoff i).pType = ptLoad) :
    Accesses.loadSegments fs ino fuel phoff (i :: is) s = (do
      let (r, s) ← Accesses.loadSegment fs ino fuel (phdrAt fs ino phoff i).pVaddr
        (phdrAt fs ino phoff i).pOffset (phdrAt fs ino phoff i).pFilesz
        (phdrAt fs ino phoff i).pMemsz s
      if r < 0 then return (-1, s) else Accesses.loadSegments fs ino fuel phoff is s) :=
  (if_neg (Int.not_lt.mpr hhas)).trans (if_neg (not_not_intro htype))

theorem loadSegments_within (fs : FsState) (ino fuel phoff : Nat) (is : List Nat) (s : Vm) :
    (Accesses.loadSegments fs ino fuel phoff is s).run.Within fun e =>
      ∃ ph ∈ segmentsAt fs ino phoff (headersRead fs ino phoff is), ∃ x, ph.Covers x ∧ e.At x := by
  induction is generalizing s with
  | nil => exact Traced.within_pure _
  | cons i is ih =>
      by_cases hhas : hasPhdr fs ino phoff i
      · rw [segmentsAt_read hhas]
        by_cases htype : (phdrAt fs ino phoff i).pType = ptLoad
        · rw [loadSegments_load hhas htype, if_pos htype]
          refine .run_bind ?_ fun ⟨r, s⟩ _ => ?_
          · intro e he
            obtain ⟨x, hx, hat⟩ := loadSegment_within (phdrAt_lt fs ino phoff i).1 _ _ _ s e he
            exact ⟨_, List.mem_cons_self, x, hx, hat⟩
          · dsimp only
            split
            · exact Traced.within_pure _
            · intro e he
              obtain ⟨ph, hph, hx⟩ := ih s e he
              exact ⟨ph, List.mem_cons_of_mem _ hph, hx⟩
        · rw [loadSegments_skip hhas htype, if_neg htype]
          exact ih s
      · rw [loadSegments_unread hhas]
        exact Traced.within_pure _

/-- A loop that returns has stored all bytes of the segments it came to. -/
theorem loadSegments_stores (hread : (sfsReadInode fs ino).isSome = true) (hfuel : 2 ^ 32 ≤ fuel)
    (hs : (Accesses.loadSegments fs ino fuel phoff is s).run.value = some (r, s')) {ph : Phdr}
    (hph : ph ∈ segmentsAt fs ino phoff (headersRead fs ino phoff is)) (hx : ph.Covers x) :
    .store x ∈ (Accesses.loadSegments fs ino fuel phoff is s).run.trace := by
  induction is generalizing s with
  | nil => cases hph
  | cons i is ih =>
      by_cases hhas : hasPhdr fs ino phoff i
      · rw [segmentsAt_read hhas] at hph
        by_cases htype : (phdrAt fs ino phoff i).pType = ptLoad
        · rw [loadSegments_load hhas htype] at hs ⊢
          rw [if_pos htype] at hph
          rw [Traced.value_run_bind] at hs
          obtain ⟨⟨r₁, s₁⟩, hs₁, hs⟩ := Option.bind_eq_some_iff.mp hs
          obtain ⟨hvirt, hfile, -⟩ := phdrAt_lt fs ino phoff i
          have hbss : u32Sub (phdrAt fs ino phoff i).pMemsz (phdrAt fs ino phoff i).pFilesz < 2 ^ 32 :=
            u32_lt _
          obtain rfl : r₁ = 0 := by
            have hvalue := hs₁
            rw [value_loadSegment (hfile.le.trans hfuel) (hbss.le.trans hfuel)] at hvalue
            exact loadSegment_result hread hvalue
          refine Traced.mem_trace_run_bind.mpr ?_
          rcases List.mem_cons.mp hph with rfl | hph
          · exact .inl (loadSegment_stores hvirt (hfile.le.trans hfuel) (hbss.le.trans hfuel)
              (le_refl 0) hs₁ hx)
          · exact .inr ⟨_, hs₁, ih hs hph⟩
        · rw [loadSegments_skip hhas htype] at hs ⊢
          rw [if_neg htype] at hph
          exact ih hs hph
      · rw [segmentsAt_unread hhas] at hph
        cases hph

/-- A call comes to its segments if the file is there with a valid header, and otherwise does
nothing. -/
theorem exec_cases (fs : FsState) (path : CStr) :
    (segmentsReached fs path = [] ∧ ∀ fuel regs s,
      Accesses.elfLoadAndExec fs fuel path regs s = pure (-1, regs, s)) ∨
    ∃ ino, lookupPath fs path = some ino ∧ hasEhdr fs ino ∧
      segmentsReached fs path = segmentsAt fs ino (ehdrAt fs ino).ePhoff
        (headersRead fs ino (ehdrAt fs ino).ePhoff (List.range (ehdrAt fs ino).ePhnum)) ∧
      ∀ fuel regs s, Accesses.elfLoadAndExec fs fuel path regs s = (do
        let (r, s) ← Accesses.loadSegments fs ino fuel (ehdrAt fs ino).ePhoff
          (List.range (ehdrAt fs ino).ePhnum) s
        if r < 0 then return (-1, regs, s)
        else
          let s ← Accesses.setupUserStack s
          return (0, startRegs (ehdrAt fs ino).eEntry regs, s)) := by
  unfold segmentsReached Accesses.elfLoadAndExec
  cases hfound : lookupPath fs path with
  | none => exact .inl ⟨rfl, fun _ _ _ => rfl⟩
  | some ino =>
      by_cases hheader : (readFileAt fs ino uninit sizeofEhdr 0).1 < sizeofEhdr
      · exact .inl ⟨if_pos hheader, fun _ _ _ => if_pos hheader⟩
      · have hhas : hasEhdr fs ino := by
          unfold hasEhdr
          omega
        by_cases hcheck : (!elfCheckFile (ehdrAt fs ino)) = true
        · exact .inl ⟨(if_neg hheader).trans (if_pos hcheck),
            fun _ _ _ => (if_neg hheader).trans (if_pos hcheck)⟩
        · exact .inr ⟨ino, rfl, hhas, (if_neg hheader).trans (if_neg hcheck),
            fun _ _ _ => (if_neg hheader).trans (if_neg hcheck)⟩

/-- A file with a header has an inode. -/
theorem hasEhdr.readable {ino : Nat} (h : hasEhdr fs ino) : (sfsReadInode fs ino).isSome = true := by
  unfold hasEhdr readFileAt at h
  cases hinode : sfsReadInode fs ino with
  | some inode => rfl
  | none =>
      rw [hinode] at h
      have hneg : ¬ (sizeofEhdr : Int) ≤ -1 := by decide
      exact absurd h hneg

theorem exec_within (fs : FsState) (fuel : Nat) (path : CStr) (regs : Registers) (s : Vm) :
    (Accesses.elfLoadAndExec fs fuel path regs s).run.Within fun e =>
      (∃ ph ∈ segmentsReached fs path, ∃ x, ph.Covers x ∧ e.At x) ∨
        ∃ k < 4, e = .map (userStackVaddr - (k + 1) * 0x1000) := by
  rcases exec_cases fs path with ⟨hnone, hexec⟩ | ⟨ino, -, -, hreached, hexec⟩
  · rw [hexec]
    exact Traced.within_pure _
  · rw [hexec, hreached]
    refine .run_bind (fun e he => .inl (loadSegments_within fs ino fuel _ _ s e he))
      fun ⟨r, s⟩ _ => ?_
    dsimp only
    split
    · exact Traced.within_pure _
    · refine .run_bind (.foldlM (fun s k hk => ?_) s) fun _ _ => Traced.within_pure _
      intro e he
      exact .inr ⟨k, List.mem_range.mp hk, List.mem_singleton.mp he⟩

theorem exec_stores (hfuel : 2 ^ 32 ≤ fuel)
    (hs : (Accesses.elfLoadAndExec fs fuel path regs s).run.value = some (r, regs', s')) {ph : Phdr}
    (hph : ph ∈ segmentsReached fs path) (hx : ph.Covers x) :
    .store x ∈ (Accesses.elfLoadAndExec fs fuel path regs s).run.trace := by
  rcases exec_cases fs path with ⟨hnone, -⟩ | ⟨ino, -, hhas, hreached, hexec⟩
  · rw [hnone] at hph
    cases hph
  · rw [hreached] at hph
    rw [hexec] at hs ⊢
    rw [Traced.value_run_bind] at hs
    obtain ⟨⟨r₁, s₁⟩, hs₁, -⟩ := Option.bind_eq_some_iff.mp hs
    exact Traced.mem_trace_run_bind.mpr
      (.inl (loadSegments_stores hhas.readable hfuel hs₁ hph hx))

end Trace

/-! ## Segments that are clear of the kernel -/

/-- All bytes of the segment are above the first 4 MB and below the window. -/
structure ClearOfKernel (ph : Phdr) : Prop where
  sizes : ph.pFilesz ≤ ph.pMemsz
  low : 0 < ph.pMemsz → 0x400000 ≤ ph.pVaddr
  high : 0 < ph.pMemsz → ph.pVaddr + ph.pMemsz ≤ 0xFFC00000

section Clear

variable {ph : Phdr}

/-- The loops go over the bytes of the segment one after the other. -/
theorem covers_of_lt {k : Nat} (hk : k < ph.pFilesz + u32Sub ph.pMemsz ph.pFilesz) :
    ph.Covers (u32 (ph.pVaddr + k)) := by
  by_cases hfile : k < ph.pFilesz
  · exact .inl ⟨k, hfile, rfl⟩
  · refine .inr ⟨k - ph.pFilesz, by omega, ?_⟩
    congr 1
    omega

theorem clearOfKernel_iff (hvirt : ph.pVaddr < 2 ^ 32) (hfile : ph.pFilesz < 2 ^ 32)
    (hmem : ph.pMemsz < 2 ^ 32) : ClearOfKernel ph ↔ ∀ x, ph.Covers x → AboveKernel x := by
  constructor
  · rintro ⟨hsizes, hlow, hhigh⟩ x hx
    obtain ⟨hx₁, hx₂⟩ := Accesses.Covers.inside hsizes (by omega) hmem hx
    exact ⟨by omega, by omega⟩
  · intro hall
    have hbyte : ∀ k < ph.pFilesz + u32Sub ph.pMemsz ph.pFilesz,
        AboveKernel (u32 (ph.pVaddr + k)) := fun k hk => hall _ (covers_of_lt hk)
    have hsizes : ph.pFilesz ≤ ph.pMemsz := by
      by_contra hlt
      -- the loops go over the whole address space, and so over address 0
      have hwrap : u32Sub ph.pMemsz ph.pFilesz = ph.pMemsz + 2 ^ 32 - ph.pFilesz :=
        u32_of_lt (by omega)
      have hzero := hbyte ((2 ^ 32 - ph.pVaddr) % 2 ^ 32) (by omega)
      have haddr : u32 (ph.pVaddr + (2 ^ 32 - ph.pVaddr) % 2 ^ 32) = 0 := by
        unfold u32
        omega
      rw [haddr] at hzero
      exact absurd hzero.1 (by decide)
    have hsum : ph.pFilesz + u32Sub ph.pMemsz ph.pFilesz = ph.pMemsz := by
      rw [u32Sub_of_le hmem hsizes]
      omega
    rw [hsum] at hbyte
    refine ⟨hsizes, fun hpos => ?_, fun hpos => ?_⟩
    · have hfirst := (hbyte 0 hpos).1
      rwa [Nat.add_zero, u32_of_lt hvirt] at hfirst
    · by_contra hend
      have hlast := (hbyte (min (ph.pMemsz - 1) (0xFFFFFFFF - ph.pVaddr)) (by omega)).2
      rw [u32_of_lt (by omega)] at hlast
      omega

end Clear

/-- What a call of `elf_load_and_exec` may not touch. -/
structure KernelSpared (s s' : Vm) (trace : List Access) : Prop where
  kept : KernelKept s s'
  stores : ∀ v, .store v ∈ trace → AboveKernel v

section Exec

variable {fs : FsState} {path : CStr} {fuel : Nat} {s s' : Vm} {r : Int} {regs regs' : Registers}

theorem mem_segmentsReached {ph : Phdr} (hph : ph ∈ segmentsReached fs path) :
    ∃ ino, lookupPath fs path = some ino ∧ hasEhdr fs ino ∧
      ∃ i < (ehdrAt fs ino).ePhnum, hasPhdr fs ino (ehdrAt fs ino).ePhoff i ∧
        (phdrAt fs ino (ehdrAt fs ino).ePhoff i).pType = ptLoad ∧
        ph = phdrAt fs ino (ehdrAt fs ino).ePhoff i := by
  rcases exec_cases fs path with ⟨hnone, -⟩ | ⟨ino, hfound, hhas, hreached, -⟩
  · rw [hnone] at hph
    cases hph
  · rw [hreached] at hph
    unfold segmentsAt headersRead at hph
    simp only [List.mem_filter, List.mem_map, beq_iff_eq] at hph
    obtain ⟨⟨i, hi, rfl⟩, htype⟩ := hph
    refine ⟨ino, hfound, hhas, i, ?_, ?_, htype, rfl⟩
    · exact List.mem_range.mp ((List.takeWhile_sublist _).subset hi)
    · exact of_decide_eq_true (List.all_eq_true.mp List.all_takeWhile i hi)

theorem Accesses.Access.At.aboveKernel {e : Access} {x : Nat} (h : e.At x) (hx : AboveKernel x) :
    AboveKernel e.addr := by
  obtain ⟨hlow, hhigh⟩ := hx
  have hpage := h.page (by omega)
  exact ⟨by omega, by omega⟩

/-- For every file and every guarded address space: a call that returns leaves the entries of the
kernel as they are and stores no byte to the kernel if and only if all segments it comes to are
clear of the kernel. -/
theorem kernel_spared_iff (h : Guarded s) (hfuel : 2 ^ 32 ≤ fuel)
    (hs : Elf.elfLoadAndExec fs path regs s = some (r, regs', s')) :
    KernelSpared s s' (Accesses.elfLoadAndExec fs fuel path regs s).run.trace ↔
      ∀ ph ∈ segmentsReached fs path, ClearOfKernel ph := by
  have hvalue := @value_elfLoadAndExec fs _ hfuel path regs s
  rw [hs] at hvalue
  constructor
  · intro hspared ph hph
    obtain ⟨ino, -, -, i, -, -, -, rfl⟩ := mem_segmentsReached hph
    obtain ⟨hvirt, hfile, hmem⟩ := phdrAt_lt fs ino (ehdrAt fs ino).ePhoff i
    rw [clearOfKernel_iff hvirt hfile hmem]
    exact fun x hx => hspared.stores x (exec_stores hfuel hvalue hph hx)
  · intro hclear
    have hwithin : (Accesses.elfLoadAndExec fs fuel path regs s).run.Within
        fun e => AboveKernel e.addr := by
      intro e he
      rcases exec_within fs fuel path regs s e he with ⟨ph, hph, x, hx, hat⟩ | ⟨k, hk, rfl⟩
      · obtain ⟨ino, -, -, i, -, -, -, rfl⟩ := mem_segmentsReached hph
        obtain ⟨hvirt, hfile, hmem⟩ := phdrAt_lt fs ino (ehdrAt fs ino).ePhoff i
        exact hat.aboveKernel ((clearOfKernel_iff hvirt hfile hmem).mp (hclear _ hph) x hx)
      · unfold AboveKernel Access.addr userStackVaddr
        dsimp only
        omega
    exact ⟨(keeps_elfLoadAndExec fs fuel path regs s h hwithin _ hvalue).2,
      fun v hv => hwithin _ hv⟩

end Exec

/-! ## Two executables -/

section Samples

variable {fs : FsState} {ino v off : Nat} {s s₁ s' : Vm} {regs : Registers} {path : CStr}

/-- A segment with a single byte, which comes from the file. -/
theorem loadSegment_byte (hread : (sfsReadInode fs ino).isSome = true) (hframe : frameOf v = v)
    (halloc : pagingAllocPage v s = some s₁) (hmapped : (s₁.translate v).isSome = true) :
    ∃ s₂, Elf.loadSegment fs ino v off 1 1 s = some (0, s₂) := by
  have hoffset : v % 4096 = 0 := by
    rw [← hframe]
    exact (frameOf_frame v).1
  have hnonneg := readFileAt_nonneg hread zeros (show 1 < 2 ^ 31 by decide) off
  obtain ⟨a, ha⟩ := Option.isSome_iff_exists.mp hmapped
  let s₂ : Vm := { s₁ with mem := Function.update s₁.mem a ((readFileAt fs ino zeros 1 off).2 0) }
  have hstore : Elf.storeBytes v 1 (readFileAt fs ino zeros 1 off).2 s₁ = some s₂ := by
    simp [Elf.storeBytes, Vm.write8, ha, s₂]
  refine ⟨s₂, ?_⟩
  unfold Elf.loadSegment Elf.loadFile
  simp only [and_0xFFF, hoffset, hframe, halloc, Option.bind_eq_bind, Option.bind_some,
    show min (4096 - 0) 1 = 1 from rfl, if_neg (show ¬ (1 : Nat) = 0 by decide), if_neg
    (show ¬ (readFileAt fs ino zeros 1 off).1 < 0 by omega), Nat.add_zero, hstore]
  rfl

/-- A file whose second header is missing is given up after its first segment. -/
theorem exec_stops (hfound : lookupPath fs path = some ino) (hhas : hasEhdr fs ino)
    (hcheck : elfCheckFile (ehdrAt fs ino) = true) (hphnum : (ehdrAt fs ino).ePhnum = 2)
    (hfirst : hasPhdr fs ino (ehdrAt fs ino).ePhoff 0)
    (htype : (phdrAt fs ino (ehdrAt fs ino).ePhoff 0).pType = ptLoad)
    (hsecond : ¬ hasPhdr fs ino (ehdrAt fs ino).ePhoff 1)
    (hload : Elf.loadSegment fs ino (phdrAt fs ino (ehdrAt fs ino).ePhoff 0).pVaddr
      (phdrAt fs ino (ehdrAt fs ino).ePhoff 0).pOffset
      (phdrAt fs ino (ehdrAt fs ino).ePhoff 0).pFilesz
      (phdrAt fs ino (ehdrAt fs ino).ePhoff 0).pMemsz s = some (0, s')) :
    Elf.elfLoadAndExec fs path regs s = some (-1, regs, s') := by
  have hsegments : Elf.loadSegments fs ino (ehdrAt fs ino).ePhoff [0, 1] s = some (-1, s') := by
    have hlast : Elf.loadSegments fs ino (ehdrAt fs ino).ePhoff [1] s' = some (-1, s') :=
      if_pos (Int.not_le.mp hsecond)
    refine (if_neg (Int.not_lt.mpr hfirst)).trans ((if_neg (not_not_intro htype)).trans ?_)
    refine (congrArg (Option.bind · _) hload).trans ?_
    exact hlast
  unfold Elf.elfLoadAndExec
  rw [hfound]
  refine (if_neg (Int.not_lt.mpr hhas)).trans ?_
  change (if (!elfCheckFile (ehdrAt fs ino)) = true then _ else _) = _
  rw [hcheck]
  refine (if_neg (by decide)).trans ?_
  change Option.bind (Elf.loadSegments fs ino (ehdrAt fs ino).ePhoff
    (List.range (ehdrAt fs ino).ePhnum) s) _ = _
  rw [hphnum, show List.range 2 = [0, 1] from rfl, hsegments]
  rfl

end Samples

/-- The file is there as `/a`, with two promised headers of which the first one is `ph` and the
second one is missing. -/
def truncatedTest (ph : Phdr) (fs : FsState) : Bool :=
  decide (lookupPath fs programPath = some 2) &&
    decide ((sizeofEhdr : Int) ≤ (readFileAt fs 2 uninit sizeofEhdr 0).1) &&
    elfCheckFile (ehdrAt fs 2) && decide ((ehdrAt fs 2).ePhnum = 2) &&
    decide (hasPhdr fs 2 (ehdrAt fs 2).ePhoff 0) && decide (phdrAt fs 2 (ehdrAt fs 2).ePhoff 0 = ph) &&
    !decide (hasPhdr fs 2 (ehdrAt fs 2).ePhoff 1)

/-- A stored file of this kind is given up after its first segment. -/
theorem exec_truncated {ph : Phdr}
    (h : (storeProgram (executable 2 [ph] [0xAA])).any (truncatedTest ph) = true)
    (htype : ph.pType = ptLoad) :
    ∃ fs, Reach fsStep dataOk (fsBoot .blank) fs ∧ (sfsReadInode fs 2).isSome = true ∧
      segmentsReached fs programPath = [ph] ∧ ∀ regs s s',
        Elf.loadSegment fs 2 ph.pVaddr ph.pOffset ph.pFilesz ph.pMemsz s = some (0, s') →
        Elf.elfLoadAndExec fs programPath regs s = some (-1, regs, s') := by
  obtain ⟨fs, hreach, htest⟩ := exists_stored h
  unfold truncatedTest at htest
  simp only [Bool.and_eq_true, decide_eq_true_eq, Bool.not_eq_true', decide_eq_false_iff_not] at htest
  obtain ⟨⟨⟨⟨⟨⟨hfound, hhas⟩, hcheck⟩, hphnum⟩, hfirst⟩, hphdr⟩, hsecond⟩ := htest
  refine ⟨fs, hreach, hasEhdr.readable hhas, ?_, fun regs s s' hload => ?_⟩
  · unfold segmentsReached
    rw [hfound]
    dsimp only
    rw [if_neg (Int.not_lt.mpr hhas), hcheck, if_neg (by decide), hphnum,
      show List.range 2 = [0, 1] from rfl, segmentsAt_read hfirst, hphdr, if_pos htype,
      segmentsAt_unread hsecond]
  · subst hphdr
    exact exec_stops hfound hhas hcheck hphnum hfirst htype hsecond hload

/-- A program whose segments are above 4 MB leaves the kernel alone. -/
theorem kernel_spared_two : ∃ fs s regs' s', Reach fsStep dataOk (fsBoot .blank) fs ∧
    boot (fun _ => 0) = some s ∧
    Elf.elfLoadAndExec fs programPath {} s = some (0, regs', s') ∧
    KernelSpared s s' (Accesses.elfLoadAndExec fs (2 ^ 32) programPath {} s).run.trace := by
  have hwf := wellFormed_twoSegments (by decide) (by decide) (by decide +kernel) (by decide +kernel)
    loadable_apart
  obtain ⟨fs, s, regs', s', hreach, hfs, hfound, hfile, hcontent, hboot, hlaid, hrun⟩ :=
    exec_stored hwf (by decide +kernel) (by rw [loadable_apart]; decide) {}
  obtain ⟨hhas, hphdrs⟩ := hasPhdr_of_exec hfound hrun
  rw [← hcontent] at hwf
  refine ⟨fs, s, regs', s', hreach, hboot, hrun,
    (kernel_spared_iff hlaid.guarded (le_refl _) hrun).mpr ?_⟩
  intro ph hph
  obtain ⟨ino, hfound', -, i, hi, hhas', htype, rfl⟩ := mem_segmentsReached hph
  obtain rfl := Option.some.inj (hfound.symm.trans hfound')
  obtain ⟨hsizes, hlow, hhigh⟩ := hwf.segmentsInUser hfs hfile hhas hphdrs i hi hhas' htype
  exact ⟨hsizes, hlow, fun hpos => (hhigh hpos).trans (by decide)⟩

/-- One byte at 2 MB. -/
def kernelByte : Phdr := ⟨1, 84, 0x200000, 1, 1⟩

/-- A file with a segment at 2 MB changes the memory of the kernel, and the call then fails. -/
theorem kernel_not_spared : ∃ fs s s', Reach fsStep dataOk (fsBoot .blank) fs ∧
    boot (fun _ => 0) = some s ∧ Guarded s ∧
    Elf.elfLoadAndExec fs programPath {} s = some (-1, {}, s') ∧
    ∀ fuel, 2 ^ 32 ≤ fuel →
      ¬ KernelSpared s s' (Accesses.elfLoadAndExec fs fuel programPath {} s).run.trace := by
  obtain ⟨fs, hreach, hread, hreached, hexec⟩ := @exec_truncated kernelByte (by decide +kernel) rfl
  obtain ⟨s, hboot, -, hlaid, -, hlen⟩ := boot_laid (fun _ => 0) 0
  have hguarded := hlaid.guarded
  obtain ⟨s₁, halloc, hmapped⟩ := @Regular.allocPage_maps s 0x200000 hguarded.toRegular (by decide)
    hguarded.first (fun hnil => by simp [hnil] at hlen)
  obtain ⟨s₂, hload⟩ := @loadSegment_byte _ _ _ 84 _ _ hread (by decide) halloc hmapped
  have hrun := hexec {} s s₂ hload
  refine ⟨fs, s, s₂, hreach, hboot, hguarded, hrun, fun fuel hfuel hspared => ?_⟩
  rw [← value_elfLoadAndExec hfuel] at hrun
  have hstore := hspared.stores 0x200000 (exec_stores hfuel hrun
    (hreached ▸ List.mem_cons_self) (.inl ⟨0, by decide, by decide⟩))
  exact absurd hstore.1 (by decide)

end SRos.Elf
